import StockFlow.Proofs.Catalog
import StockFlow.Proofs.Nesting
import StockFlow.Proofs.Storing

/-!
# Projects that cannot be run

After expansion the equations of a compiled project call primitives alone, in the variables made for the
arguments of calls as well. So there are two reasons at most why there is no run of it: a primitive is
called with arguments that it does not take, or an input of a module leads to a module.
-/

namespace StockFlow

variable {α : Type}

/-! ## Calls left by expansion -/

section

variable [Scalar α]

/-- Whether only primitives are called, in what is left of equations and in what was made for it. -/
structure Expanded.IsSettled {β : Type} (calls : β → List (Name × List (Equation α)))
    (expanded : Expanded α β) : Prop where
  own : ∀ call ∈ calls expanded.result, isPrimitive call.1 = true
  made : ∀ definition ∈ expanded.made, ∀ v, Variable.ofDefinition definition = .ok v → v.IsPrimitive

namespace Expansion

theorem isPrimitive_of_argumentVariable {owner : Name} {call index : Nat} {argument : Equation α}
    (primitive : ∀ call ∈ argument.calls, isPrimitive call.1 = true) :
    ∀ definition ∈ argumentVariable owner call index argument, ∀ v,
      Variable.ofDefinition definition = .ok v → v.IsPrimitive := by
  intro definition member v checked
  unfold argumentVariable at member
  split at member
  · cases member
  · obtain rfl := List.mem_singleton.mp member
    refine (Variable.isPrimitive_of_isBasic ?_ checked).1
    refine List.all_eq_true.mpr fun call among => ?_
    rw [canonical_of_isPrimitive (primitive call among), primitive call among]

theorem isPrimitive_of_hoisted {owner : Name} {call index : Nat} {arguments : List (Equation α)}
    (primitive : ∀ call ∈ Equation.callsAll arguments, isPrimitive call.1 = true) :
    ∀ definition ∈ hoisted owner call index arguments, ∀ v,
      Variable.ofDefinition definition = .ok v → v.IsPrimitive := by
  induction arguments generalizing index with
  | nil => simp [hoisted]
  | cons first rest ih =>
    obtain ⟨here, others⟩ := List.forall_mem_append.mp primitive
    rw [hoisted, List.forall_mem_append]
    exact ⟨isPrimitive_of_argumentVariable here, ih others⟩

theorem isPrimitive_of_module {definition : Document.Module} {v : Variable α}
    (checked : Variable.ofDefinition (.module definition) = .ok v) : v.IsPrimitive := by
  obtain ⟨inputs, -, checked⟩ := bind_eq_ok.mp checked
  obtain rfl := pure_eq_ok.mp checked
  rintro _ ⟨⟩

theorem isSettled_of_expandCall {owner function : Name} {arguments : Expanded α (List (Equation α))}
    {result : Expanded α (Equation α)} (settled : arguments.IsSettled Equation.callsAll)
    (expanded : expandCall owner function arguments = .ok result) : result.IsSettled Equation.calls := by
  rcases expandCall_eq_ok expanded with ⟨known, rfl⟩ | ⟨_, -, -, -, -, rfl⟩
  · exact ⟨List.forall_mem_cons.mpr ⟨known, settled.own⟩, settled.made⟩
  · refine ⟨by simp [Equation.calls], ?_⟩
    simp only [List.forall_mem_append, List.forall_mem_singleton]
    exact ⟨⟨settled.made, isPrimitive_of_hoisted settled.own⟩, fun v => isPrimitive_of_module⟩

mutual

/-- Expansion leaves calls of primitives alone. -/
theorem isSettled_of_expand {owner : Name} : ∀ {equation : Equation α} {calls : Nat}
    {result : Expanded α (Equation α)}, expand owner equation calls = .ok result →
      result.IsSettled Equation.calls
  | .constant _ _, _, _, expanded => by
    cases expanded
    exact ⟨by simp [Equation.calls], by simp⟩
  | .reference _, _, _, expanded => by
    cases expanded
    exact ⟨by simp [Equation.calls], by simp⟩
  | .call _ _, _, _, expanded => by
    simp only [expand, bind_eq_ok] at expanded
    obtain ⟨_, inner, outer⟩ := expanded
    exact isSettled_of_expandCall (isSettled_of_expandAll inner) outer
  | .group _, _, _, expanded => by
    simp only [expand, bind_eq_ok, pure_eq_ok] at expanded
    obtain ⟨_, inner, rfl⟩ := expanded
    have settled := isSettled_of_expand inner
    exact ⟨by simpa only [Equation.calls] using settled.own, settled.made⟩
  | .unary _ _, _, _, expanded => by
    simp only [expand, bind_eq_ok, pure_eq_ok] at expanded
    obtain ⟨_, inner, rfl⟩ := expanded
    have settled := isSettled_of_expand inner
    exact ⟨by simpa only [Equation.calls] using settled.own, settled.made⟩
  | .binary _ _ _, _, _, expanded => by
    simp only [expand, bind_eq_ok, pure_eq_ok] at expanded
    obtain ⟨_, left, _, right, rfl⟩ := expanded
    have first := isSettled_of_expand left
    have second := isSettled_of_expand right
    exact ⟨List.forall_mem_append.mpr ⟨first.own, second.own⟩,
      List.forall_mem_append.mpr ⟨first.made, second.made⟩⟩
  | .conditional _ _ _, _, _, expanded => by
    simp only [expand, bind_eq_ok, pure_eq_ok] at expanded
    obtain ⟨_, condition, _, whenTrue, _, whenFalse, rfl⟩ := expanded
    have first := isSettled_of_expand condition
    have second := isSettled_of_expand whenTrue
    have third := isSettled_of_expand whenFalse
    constructor
    · simp only [Equation.calls, List.forall_mem_append]
      exact ⟨⟨first.own, second.own⟩, third.own⟩
    · simp only [List.forall_mem_append]
      exact ⟨⟨first.made, second.made⟩, third.made⟩

theorem isSettled_of_expandAll {owner : Name} : ∀ {equations : List (Equation α)} {calls : Nat}
    {result : Expanded α (List (Equation α))}, expandAll owner equations calls = .ok result →
      result.IsSettled Equation.callsAll
  | [], _, _, expanded => by
    cases expanded
    exact ⟨by simp [Equation.callsAll], by simp⟩
  | _ :: _, _, _, expanded => by
    simp only [expandAll, bind_eq_ok, pure_eq_ok] at expanded
    obtain ⟨_, first, _, rest, rfl⟩ := expanded
    have here := isSettled_of_expand first
    have others := isSettled_of_expandAll rest
    exact ⟨List.forall_mem_append.mpr ⟨here.own, others.own⟩,
      List.forall_mem_append.mpr ⟨here.made, others.made⟩⟩

end

end Expansion

theorem Model.isPrimitive_of_expandVariable {v w : Variable α} {made : List (Document.Variable α)}
    (expanded : expandVariable v = .ok (w, made)) : w.IsPrimitive ∧
      ∀ definition ∈ made, ∀ u, Variable.ofDefinition definition = .ok u → u.IsPrimitive := by
  unfold expandVariable at expanded
  split at expanded
  · rename_i none
    cases expanded
    refine ⟨fun equation own => ?_, by simp⟩
    rw [none] at own
    cases own
  · simp only [bind_eq_ok, pure_eq_ok, attribute_eq_ok] at expanded
    obtain ⟨result, inner, same⟩ := expanded
    cases same
    have settled := Expansion.isSettled_of_expand inner
    refine ⟨fun equation own => ?_, settled.made⟩
    cases v <;> cases own <;> exact settled.own

/-- The variables of a model that was built call primitives alone. -/
theorem Model.isPrimitive_of_build {document : Document.Model α} {implicit : Bool} {model : Model α}
    (built : build document implicit = .ok model) : ∀ v ∈ model.vars, v.IsPrimitive := by
  intro w member
  obtain ⟨-, -, v, u, made, -, one, origin⟩ := origin_of_build built member
  obtain ⟨own, others⟩ := isPrimitive_of_expandVariable one
  rcases origin with rfl | ⟨other, among, checked⟩
  · exact own
  · exact others other among w checked

theorem Project.Comes.isPrimitive {document : Document.Project α} {model : Model α}
    (comes : Comes document model) : ∀ v ∈ model.vars, v.IsPrimitive := by
  rcases comes with ⟨own, -, built⟩ | ⟨function, built⟩
  · exact Model.isPrimitive_of_build built
  · exact Model.isPrimitive_of_build built

end

/-! ## Calls that are refused -/

/-- Whether a primitive is called with a number of arguments that it does not take, or looks up what is
no name. -/
def Equation.IsMisused (function : Name) (arguments : List (Equation α)) : Prop :=
  ∃ primitive, Primitive.ofName? function = some primitive ∧
    (primitive.admits arguments.length = false ∨
      primitive = .lookup ∧ ∀ name rest, arguments ≠ .reference name :: rest)

theorem Equation.isMisused_iff {function : Name} {arguments : List (Equation α)} :
    IsMisused function arguments ↔
      isPrimitive function = true ∧ isAdmissible function arguments = false := by
  unfold IsMisused isAdmissible
  rw [← isSome_ofName?]
  cases Primitive.ofName? function with
  | none => simp
  | some primitive =>
    cases primitive with
    | lookup =>
      rcases arguments with _ | ⟨first, _ | ⟨second, _ | ⟨third, rest⟩⟩⟩ <;>
        try cases first
      all_goals simp [Primitive.admits]
    | elementary | infinity | pi | maximum | minimum | pulse | safeDivide => simp

namespace Scope

variable [Scalar α] {scope : Scope α} {fault : Fault}

theorem lowerCall_eq_error {function : Name} {arguments : List (Equation α)} {terms : List (Term α)}
    (primitive : isPrimitive function = true)
    (failed : scope.lowerCall function arguments terms = .error fault) :
    fault = .simulation .wrongArguments scope.owner := by
  obtain ⟨known, found⟩ := Option.isSome_iff_exists.mp ((isSome_ofName? function).trans primitive)
  unfold lowerCall at failed
  rw [found] at failed
  dsimp only at failed
  split at failed
  · unfold lowerLookup at failed
    split at failed
    · cases failed
    · cases failed
      rfl
  all_goals cases failed
  rfl

mutual

/-- If an equation that calls primitives alone has no term, some of them cannot take their arguments. -/
theorem lower_eq_error : ∀ {equation : Equation α},
    (∀ call ∈ equation.calls, isPrimitive call.1 = true) → scope.lower equation = .error fault →
      fault = .simulation .wrongArguments scope.owner
  | .constant _ _, _, failed => by cases failed
  | .reference _, _, failed => by cases failed
  | .call _ _, primitive, failed => by
    obtain ⟨known, others⟩ := List.forall_mem_cons.mp primitive
    rw [lower] at failed
    rcases bind_eq_error.mp failed with inner | ⟨_, -, outer⟩
    · exact lowerAll_eq_error others inner
    · exact lowerCall_eq_error known outer
  | .group _, primitive, failed => by
    rw [Equation.calls] at primitive
    rw [lower] at failed
    exact lower_eq_error primitive failed
  | .unary operator _, primitive, failed => by
    rw [Equation.calls] at primitive
    cases operator with
    | positive =>
      rw [lower] at failed
      exact lower_eq_error primitive failed
    | negative | not =>
      rw [lower] at failed
      rcases bind_eq_error.mp failed with inner | ⟨_, -, ⟨⟩⟩
      exact lower_eq_error primitive inner
  | .binary _ _ _, primitive, failed => by
    obtain ⟨first, second⟩ := List.forall_mem_append.mp primitive
    rw [lower] at failed
    rcases bind_eq_error.mp failed with left | ⟨_, -, failed⟩
    · exact lower_eq_error first left
    · rcases bind_eq_error.mp failed with right | ⟨_, -, ⟨⟩⟩
      exact lower_eq_error second right
  | .conditional _ _ _, primitive, failed => by
    simp only [Equation.calls, List.forall_mem_append] at primitive
    obtain ⟨⟨first, second⟩, third⟩ := primitive
    rw [lower] at failed
    rcases bind_eq_error.mp failed with condition | ⟨_, -, failed⟩
    · exact lower_eq_error first condition
    · rcases bind_eq_error.mp failed with whenTrue | ⟨_, -, failed⟩
      · exact lower_eq_error second whenTrue
      · rcases bind_eq_error.mp failed with whenFalse | ⟨_, -, ⟨⟩⟩
        exact lower_eq_error third whenFalse

theorem lowerAll_eq_error : ∀ {equations : List (Equation α)},
    (∀ call ∈ Equation.callsAll equations, isPrimitive call.1 = true) →
      scope.lowerAll equations = .error fault → fault = .simulation .wrongArguments scope.owner
  | [], _, failed => by cases failed
  | _ :: _, primitive, failed => by
    obtain ⟨here, others⟩ := List.forall_mem_append.mp primitive
    rw [lowerAll] at failed
    rcases bind_eq_error.mp failed with first | ⟨_, -, failed⟩
    · exact lower_eq_error here first
    · rcases bind_eq_error.mp failed with rest | ⟨_, -, ⟨⟩⟩
      exact lowerAll_eq_error others rest

end

end Scope

/-! ## What hinders a run -/

/-- The faults of a variable, connected or not, for which no code can be made of it. -/
inductive Variable.Hinders : Bool → Variable α → Fault → Prop
  | call {v : Variable α} {equation : Equation α} {function : Name} {arguments : List (Equation α)}
    (own : v.equation? = some equation) (among : (function, arguments) ∈ equation.calls)
    (misused : Equation.IsMisused function arguments) :
    Hinders false v (.simulation .wrongArguments v.name)
  | module (module : Module) : Hinders true (.module module) (.simulation .doesNotExist module.name)

namespace Variable

variable {v : Variable α}

theorem hinders_of_lower [Scalar α] {scope : Scope α} {equation : Equation α} {fault : Fault}
    (primitive : v.IsPrimitive) (own : v.equation? = some equation) (owner : scope.owner = v.name)
    (failed : scope.lower equation = .error fault) : v.Hinders false fault := by
  have refused : ¬ equation.IsAdmissible := by
    rw [← scope.exists_lower_iff, failed]
    simp
  unfold Equation.IsAdmissible at refused
  push Not at refused
  obtain ⟨⟨function, arguments⟩, among, refused⟩ := refused
  have known := primitive equation own
  rw [Scope.lower_eq_error known failed, owner]
  exact .call own among (Equation.isMisused_iff.mpr ⟨known _ among, Bool.eq_false_iff.mpr refused⟩)

theorem Hinders.not_isCodable {connected : Bool} {fault : Fault} (hinders : v.Hinders connected fault) :
    ¬ v.IsCodable connected := by
  intro codable
  cases hinders with
  | call own among misused =>
    have admissible := codable _ own _ among
    rw [(Equation.isMisused_iff.mp misused).2] at admissible
    cases admissible
  | module => cases codable

end Variable

namespace Site

variable [Scalar α] {site : Site α} {first : Nat}
  (slots : site.wired.slots = Layout.slotsFrom first site.model.vars) {fault : Fault}
include slots

omit [Scalar α] in
theorem slot_eq_error {v : Variable α} (member : v ∈ site.model.vars)
    (failed : site.slot v.name = .error fault) :
    v.isModule = true ∧ fault = .simulation .doesNotExist v.name := by
  unfold slot at failed
  split at failed
  · cases failed
  · rename_i absent
    cases failed
    refine ⟨?_, rfl⟩
    by_contra plain
    have present : ∃ slot, site.wired.slots.get? v.name = some slot := by
      rw [slots]
      exact Layout.exists_get?_slotsFrom member (Bool.eq_false_iff.mpr plain)
    rw [absent] at present
    obtain ⟨_, ⟨⟩⟩ := present

theorem variableCode_eq_error {v : Variable α} {phase : Phase} (member : v ∈ site.model.vars)
    (primitive : v.IsPrimitive) (failed : site.variableCode v phase = .error fault) :
    v.Hinders (site.inputs.get? v.name).isSome fault := by
  unfold variableCode at failed
  split at failed
  · rename_i source connected
    unfold inputCode at failed
    split at failed
    · cases failed
    · rcases bind_eq_error.mp failed with failed | ⟨_, -, ⟨⟩⟩
      obtain ⟨isModule, rfl⟩ := slot_eq_error slots member failed
      rw [connected]
      cases v with
      | module module => exact .module module
      | stock | formula => cases isModule
  · rename_i unconnected
    rw [unconnected]
    cases v with
    | module => cases failed
    | stock stock =>
      rcases bind_eq_error.mp failed with absent | ⟨slot, -, failed⟩
      · cases (slot_eq_error slots member absent).1
      cases phase with
      | initials =>
        rcases bind_eq_error.mp failed with failed | ⟨_, -, ⟨⟩⟩
        exact Variable.hinders_of_lower primitive rfl rfl failed
      | flows | stocks => cases failed
    | formula formula =>
      rcases bind_eq_error.mp failed with absent | ⟨slot, -, failed⟩
      · cases (slot_eq_error slots member absent).1
      rcases bind_eq_error.mp failed with failed | ⟨_, -, ⟨⟩⟩
      rcases bind_eq_error.mp failed with failed | ⟨_, -, ⟨⟩⟩
      exact Variable.hinders_of_lower primitive rfl rfl failed

theorem code_eq_error (primitive : ∀ v ∈ site.model.vars, v.IsPrimitive)
    (failed : site.code = .error fault) :
    ∃ v ∈ site.model.vars, v.Hinders (site.inputs.get? v.name).isSome fault := by
  have each : ∀ phase, site.phaseCode phase = .error fault →
      ∃ v ∈ site.model.vars, v.Hinders (site.inputs.get? v.name).isSome fault := by
    intro phase failed
    rcases bind_eq_error.mp failed with failed | ⟨_, -, ⟨⟩⟩
    obtain ⟨v, listed, failed⟩ := exists_of_mapM_eq_error failed
    obtain ⟨_, -, found⟩ := List.mem_filterMap.mp listed
    have member : v ∈ site.model.vars := mem_of_findNamed found
    exact ⟨v, member, variableCode_eq_error slots member (primitive v member) failed⟩
  rcases bind_eq_error.mp failed with failed | ⟨_, -, failed⟩
  · exact each .initials failed
  rcases bind_eq_error.mp failed with failed | ⟨_, -, failed⟩
  · exact each .flows failed
  rcases bind_eq_error.mp failed with failed | ⟨_, -, ⟨⟩⟩
  exact each .stocks failed

end Site

namespace Project

variable {project : Project α}

/-- Whether a run of a project has an instance of a model with these inputs. -/
inductive Runs (project : Project α) : List Input → LinkedModel α → Prop
  | main {model : LinkedModel α} (isMain : project.main? = some model) : Runs project [] model
  | inside {inputs : List Input} {model inner : LinkedModel α} {module : Module}
    (runs : Runs project inputs model) (member : module ∈ model.modules)
    (found : project.find? module.model = some inner) : Runs project module.inputs inner

/-- The faults for which a project cannot be run are those of the variables of its instances. -/
def Hinders (project : Project α) (fault : Fault) : Prop :=
  ∃ inputs model, project.Runs inputs model ∧
    ∃ v ∈ model.vars, v.Hinders (inputs.any fun input => input.target == v.name) fault

end Project

namespace Layout

variable {project : Project α}

/-- Whether a layout is that of an instance of a model with these inputs. -/
structure IsOf (project : Project α) (inputs : List Input) (model : LinkedModel α) (node : Layout) :
    Prop where
  found : project.find? node.model = some model
  connected : ∀ name, (node.note.get? name).isSome = inputs.any fun input => input.target == name

theorem isOf_module {module : Module} {inner : LinkedModel α} {child : Layout}
    (found : project.find? module.model = some inner) (same : child.model = module.model)
    (wires : child.note = Model.wires module) : IsOf project module.inputs inner child where
  found := same ▸ found
  connected name := by
    rw [wires, Model.wires, Keyed.isSome_get?_ofList, List.any_map]
    rfl

theorem isOf_main (distinct : project.HasDistinctNames) {main : LinkedModel α}
    (isMain : project.main? = some main) {layout : Layout}
    (placed : Layout.ofProject project main = .ok layout) : IsOf project [] main layout := by
  obtain ⟨-, named, -, note⟩ := Plan.placed_of_layout distinct isMain placed
  exact ⟨named ▸ isMain, fun name => note ▸ rfl⟩

/-- Why no code can be made of an instance is among the reasons for which its project cannot be run. -/
theorem Placed.hinders_of_ofWired [Scalar α] {root above node : Layout} {clock : Clock α} {fault : Fault}
    (placed : Placed project node)
    (primitive : ∀ name model, project.find? name = some model → ∀ v ∈ model.vars, v.IsPrimitive)
    {inputs : List Input} {model : LinkedModel α} (isOf : IsOf project inputs model node)
    (runs : project.Runs inputs model)
    (failed : Coded.ofWired project clock (wiredBelow root above node) = .error fault) :
    project.Hinders fault := by
  induction placed generalizing above inputs model with
  | @intro node other first found slots tidy modules below ih =>
    obtain rfl := Option.some.inj (isOf.found.symm.trans found)
    rw [wiredBelow_eq, Coded.ofWired] at failed
    -- the instances below come first, each with the inputs of its module
    rcases bind_eq_error.mp failed with failed | ⟨_, -, failed⟩
    · rw [Coded.allOfWired_eq_mapM, allWiredBelow_eq_map] at failed
      obtain ⟨_, listed, failed⟩ := exists_of_mapM_eq_error failed
      obtain ⟨child, member, rfl⟩ := List.mem_map.mp listed
      obtain ⟨module, declared, -, same, wires⟩ := exists_left_of_mem modules member
      have known : ∃ inner, project.find? module.model = some inner := by
        obtain ⟨found, -⟩ := below child member
        exact ⟨_, same ▸ found⟩
      obtain ⟨inner, here⟩ := known
      exact ih child member (isOf_module here same wires) (.inside runs declared here) failed
    · rw [isOf.found] at failed
      rcases bind_eq_error.mp failed with failed | ⟨_, -, ⟨⟩⟩
      obtain ⟨v, member, hinders⟩ := Site.code_eq_error slots (primitive _ _ isOf.found) failed
      refine ⟨inputs, model, runs, v, member, ?_⟩
      rw [← isOf.connected, ← isSome_get?_wire root above]
      exact hinders

/-- If code can be made of the main model's instance and of all below it, it can be made of each instance
of a run. -/
theorem exists_isOf_of_runs {layout : Layout} {main : LinkedModel α} (isMain : project.main? = some main)
    (placed : Placed project layout) (isOf : IsOf project [] main layout)
    (codable : IsCodable project layout) {inputs : List Input} {model : LinkedModel α}
    (runs : project.Runs inputs model) : ∃ node, Placed project node ∧ IsOf project inputs model node ∧
      IsCodable project node := by
  induction runs with
  | main same =>
    obtain rfl := Option.some.inj (isMain.symm.trans same)
    exact ⟨layout, placed, isOf, codable⟩
  | @inside inputs model inner module _ member here ih =>
    obtain ⟨node, placed, isOf, codable⟩ := ih
    obtain ⟨found, -, -, modules, below⟩ := placed
    obtain rfl := Option.some.inj (isOf.found.symm.trans found)
    obtain ⟨child, inside, -, same, wires⟩ := exists_right_of_mem modules member
    obtain ⟨-, -, each⟩ := codable
    exact ⟨child, below child inside, isOf_module here same wires, each child inside⟩

theorem IsCodable.not_hinders {inputs : List Input} {model : LinkedModel α} {node : Layout}
    (codable : IsCodable project node) (isOf : IsOf project inputs model node) {v : Variable α}
    (member : v ∈ model.vars) {fault : Fault} :
    ¬ v.Hinders (inputs.any fun input => input.target == v.name) fault := by
  obtain ⟨found, own, -⟩ := codable
  obtain rfl := Option.some.inj (isOf.found.symm.trans found)
  rw [← isOf.connected]
  exact fun hinders => hinders.not_isCodable (own v member)

end Layout

/-! ## Starting a run -/

namespace Project

variable [Scalar α] {document : Document.Project α} {project : Project α}
  (compiled : compile document = .ok project)
include compiled

theorem hinders_of_ofProject {fault : Fault} (failed : Plan.ofProject project = .error fault) :
    project.Hinders fault := by
  obtain ⟨main, isMain⟩ := exists_main compiled
  obtain ⟨layout, placed, -⟩ := exists_layout compiled isMain
  have primitive : ∀ name model, project.find? name = some model → ∀ v ∈ model.vars, v.IsPrimitive :=
    fun _ _ found => (isLinked_of_compile compiled found).2.isPrimitive
  unfold Plan.ofProject at failed
  rw [isMain] at failed
  rcases bind_eq_error.mp failed with invalid | ⟨_, -, failed⟩
  · rw [validate_runSpec compiled] at invalid
    cases invalid
  rcases bind_eq_error.mp failed with unplaced | ⟨_, same, failed⟩
  · rw [placed] at unplaced
    cases unplaced
  obtain rfl := Except.ok.inj (placed.symm.trans same)
  rcases bind_eq_error.mp failed with failed | ⟨_, -, ⟨⟩⟩
  have consistent := consistent_of_compile compiled
  exact (Plan.placed_of_layout consistent.distinct isMain placed).1.hinders_of_ofWired primitive
    (Layout.isOf_main consistent.distinct isMain placed) (.main isMain) failed

theorem not_hinders_of_ofProject {plan : Plan α} (planned : Plan.ofProject project = .ok plan)
    (fault : Fault) : ¬ project.Hinders fault := by
  rintro ⟨inputs, model, runs, v, member, hinders⟩
  obtain ⟨main, isMain⟩ := exists_main compiled
  have consistent := consistent_of_compile compiled
  obtain ⟨-, layout, placed, codable⟩ := (Plan.exists_ofProject_iff consistent isMain).mp ⟨plan, planned⟩
  obtain ⟨node, -, isOf, codable⟩ := Layout.exists_isOf_of_runs isMain
    (Plan.placed_of_layout consistent.distinct isMain placed).1
    (Layout.isOf_main consistent.distinct isMain placed) codable runs
  exact codable.not_hinders isOf member hinders

end Project

/-- The input of `m` leads to the module `n` of its model. -/
def Plan.misled : Document.Project Float :=
  ⟨"", ⟨0, 2, 1, none⟩, [
    ⟨"main", none, [
      .auxiliary ⟨"a", "1", none, none⟩,
      .module ⟨"m", "sub", [⟨"a", "m.n"⟩]⟩]⟩,
    ⟨"sub", none, [.module ⟨"n", "deep", []⟩]⟩,
    ⟨"deep", none, [.auxiliary ⟨"x", "0", none, none⟩]⟩]⟩

namespace Simulation

end Simulation

end StockFlow
