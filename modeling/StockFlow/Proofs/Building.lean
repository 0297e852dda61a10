import StockFlow.Proofs.Acyclic
import StockFlow.Proofs.Catalog
import StockFlow.Proofs.Lowering

/-!
# Projects of one model

Equations that call primitives alone are expanded into themselves. So a model whose definitions call
nothing else and instantiate nothing is built from its definitions as they are; and if its names can
be resolved without a cycle, a project of that model can be compiled beside the library.
-/

namespace StockFlow

variable {α : Type}

/-! ## Equations without stateful calls -/

namespace Expansion

mutual

theorem expand_of_isPrimitive {owner : Name} : ∀ {equation : Equation α} {calls : Nat},
    (∀ call ∈ equation.calls, isPrimitive call.1 = true) →
      expand owner equation calls = .ok ⟨equation, [], calls⟩
  | .constant _ _, _, _ => rfl
  | .reference _, _, _ => rfl
  | .call function arguments, calls, primitive => by
    obtain ⟨first, others⟩ := List.forall_mem_cons.mp primitive
    rw [expand, expandAll_of_isPrimitive others]
    exact if_pos first
  | .group inner, _, primitive => by
    rw [Equation.calls] at primitive
    rw [expand, expand_of_isPrimitive primitive]
    rfl
  | .unary _ operand, _, primitive => by
    rw [Equation.calls] at primitive
    rw [expand, expand_of_isPrimitive primitive]
    rfl
  | .binary _ left right, calls, primitive => by
    obtain ⟨first, second⟩ := List.forall_mem_append.mp primitive
    rw [expand, expand_of_isPrimitive first]
    have next : expand owner right calls = .ok ⟨right, [], calls⟩ := expand_of_isPrimitive second
    simp [bind, Except.bind, next, pure, Except.pure]
  | .conditional condition whenTrue whenFalse, calls, primitive => by
    simp only [Equation.calls, List.forall_mem_append] at primitive
    obtain ⟨⟨first, second⟩, third⟩ := primitive
    rw [expand, expand_of_isPrimitive first]
    have next : expand owner whenTrue calls = .ok ⟨whenTrue, [], calls⟩ := expand_of_isPrimitive second
    have last : expand owner whenFalse calls = .ok ⟨whenFalse, [], calls⟩ := expand_of_isPrimitive third
    simp [bind, Except.bind, next, last, pure, Except.pure]

theorem expandAll_of_isPrimitive {owner : Name} : ∀ {equations : List (Equation α)} {calls : Nat},
    (∀ call ∈ Equation.callsAll equations, isPrimitive call.1 = true) →
      expandAll owner equations calls = .ok ⟨equations, [], calls⟩
  | [], _, _ => rfl
  | first :: rest, calls, primitive => by
    obtain ⟨here, others⟩ := List.forall_mem_append.mp primitive
    rw [expandAll, expand_of_isPrimitive here]
    have next : expandAll owner rest calls = .ok ⟨rest, [], calls⟩ := expandAll_of_isPrimitive others
    simp [bind, Except.bind, next, pure, Except.pure]

end

end Expansion

/-- Whether a variable, if it has an equation, calls primitives alone. -/
def Variable.IsPrimitive (v : Variable α) : Prop :=
  ∀ equation, v.equation? = some equation → ∀ call ∈ equation.calls, isPrimitive call.1 = true

theorem Model.expandVariable_of_isPrimitive {v : Variable α} (primitive : v.IsPrimitive) :
    expandVariable v = .ok (v, []) := by
  unfold expandVariable
  split
  · rfl
  · rename_i equation own
    rw [Expansion.expand_of_isPrimitive (primitive equation own)]
    cases v <;> cases own <;> rfl

/-! ## Basic definitions -/

/-- Whether a definition is no module and calls primitives alone. -/
def Document.Variable.isBasic : Document.Variable α → Bool
  | stock definition => definition.equation?.elim true callsPrimitives
  | flow definition => definition.equation?.elim true callsPrimitives
  | auxiliary definition => definition.equation?.elim true callsPrimitives
  | module _ => false
where
  callsPrimitives (equation : Equation α) : Bool :=
    equation.calls.all fun call => isPrimitive (Name.canonical call.1)

namespace Variable

open Document.Variable (isBasic.callsPrimitives)

variable [Scalar α]

theorem isPrimitive_of_readEquation {name : Name} {equation? : Option (Equation α)} {text : String}
    {equation : Equation α} (basic : equation?.elim true isBasic.callsPrimitives = true)
    (read : readEquation name equation? text = .ok equation) :
    ∀ call ∈ equation.calls, isPrimitive call.1 = true := by
  unfold readEquation at read
  split at read
  · cases read
    rw [Equation.calls_mapNames]
    intro call member
    obtain ⟨call, among, rfl⟩ := List.mem_map.mp member
    exact List.all_eq_true.mp basic call among
  · dsimp only at read
    split at read
    · cases read
      simp [Equation.calls]
    · split at read <;> cases read

theorem isPrimitive_of_readFormula {name : Name} {equation? : Option (Equation α)} {text : String}
    {table? : Option (Table α)} {equation : Equation α}
    (basic : equation?.elim true isBasic.callsPrimitives = true)
    (read : readFormula name equation? text table? = .ok equation) :
    ∀ call ∈ equation.calls, isPrimitive call.1 = true := by
  unfold readFormula at read
  split at read
  · cases read
    simp [Equation.calls]
  · exact isPrimitive_of_readEquation basic read

/-- What a basic definition defines is no module and calls primitives alone. -/
theorem isPrimitive_of_isBasic {definition : Document.Variable α} {v : Variable α}
    (basic : definition.isBasic = true) (checked : ofDefinition definition = .ok v) :
    v.IsPrimitive ∧ v.isModule = false := by
  cases definition with
  | module => cases basic
  | stock definition =>
    obtain ⟨equation, read, checked⟩ := bind_eq_ok.mp checked
    obtain rfl := pure_eq_ok.mp checked
    refine ⟨fun _ own => ?_, rfl⟩
    cases own
    exact isPrimitive_of_readEquation basic read
  | flow definition | auxiliary definition =>
    obtain ⟨equation, read, checked⟩ := bind_eq_ok.mp checked
    obtain rfl := pure_eq_ok.mp checked
    refine ⟨fun _ own => ?_, rfl⟩
    cases own
    exact isPrimitive_of_readFormula basic read

end Variable

theorem Library.isBasic_model [Scalar α] (function : Stateful) :
    ∀ definition ∈ (Library.model function : Document.Model α).definitions,
      definition.isBasic = true := by
  have known : isPrimitive (Name.canonical "safediv") = true := by decide
  cases function <;>
    simp [model, delay1, delay3, smooth1, smooth3, trend, withInputs, Library.auxiliary, Library.flow,
      Library.stock, minus, times, dividedBy, approach, stageTime, Equation.natural,
      Document.Variable.isBasic, Document.Variable.isBasic.callsPrimitives, Equation.calls,
      Equation.callsAll, known]

/-! ## Building -/

namespace Model

variable [Scalar α] {document : Document.Model α} {implicit : Bool}

variable (document implicit) in
/-- Definitions that can be checked, with different names, equations that call primitives alone, and
flows among them, make a model of the variables that they define. -/
theorem exists_build
    (checks : ∀ definition ∈ document.definitions, ∃ v, Variable.ofDefinition definition = .ok v)
    (distinct : (document.definitions.map fun definition => Name.canonical definition.name).Nodup)
    (primitive : ∀ definition ∈ document.definitions, ∀ v,
      Variable.ofDefinition definition = .ok v → v.IsPrimitive)
    (flows : ∀ definition ∈ document.definitions, ∀ v, Variable.ofDefinition definition = .ok v →
      ∀ flow ∈ v.flows, ∃ other ∈ document.definitions, Name.canonical other.name = flow) :
    ∃ model, build document implicit = .ok model ∧ model.name = document.name ∧
      model.timeSpec? = document.timeSpec? ∧ ∀ v, v ∈ model.vars ↔
        ∃ definition ∈ document.definitions, Variable.ofDefinition definition = .ok v := by
  obtain ⟨vars, folded⟩ : ∃ vars, document.definitions.foldlM declare [] = .ok vars :=
    (exists_declared_iff .nil).mpr ⟨checks, distinct, by simp⟩
  have members : ∀ v, v ∈ vars ↔
      ∃ definition ∈ document.definitions, Variable.ofDefinition definition = .ok v := by
    intro v
    rw [(declared folded .nil).2 v]
    simp
  -- nothing is made for a variable that calls primitives alone
  have same : vars.mapM expandVariable = .ok (vars.map fun v => (v, [])) := by
    rw [mapM_eq_ok, List.forall₂_map_right_iff, List.forall₂_same]
    intro v member
    obtain ⟨definition, listed, checked⟩ := (members v).mp member
    exact expandVariable_of_isPrimitive (primitive definition listed v checked)
  have flowing : checkFlows vars = .ok () := by
    refine forM_eq_ok.mpr fun v member => forM_eq_ok.mpr fun flow among => if_pos ?_
    obtain ⟨definition, listed, checked⟩ := (members v).mp member
    obtain ⟨other, present, rfl⟩ := flows definition listed v checked flow among
    obtain ⟨w, checked'⟩ := checks other present
    exact findNamed_isSome.mpr
      ⟨w, (members w).mpr ⟨other, present, checked'⟩, Variable.name_of_ofDefinition checked'⟩
  refine ⟨⟨document.name, document.timeSpec?, vars, implicit⟩, ?_, rfl, rfl, members⟩
  simp only [build, bind_eq_ok, pure_eq_ok]
  have none : (vars.map fun v => (v, ([] : List (Document.Variable α)))).flatMap Prod.snd = [] := by
    simp
  have own : (vars.map fun v => (v, ([] : List (Document.Variable α)))).map Prod.fst = vars := by
    simp [Function.comp_def]
  refine ⟨vars, folded, _, same, vars, ?_, (), flowing, rfl⟩
  rw [none, own]
  rfl

omit [Scalar α] in
theorem modules_eq_nil {model : Model α} (own : ∀ v ∈ model.vars, v.isModule = false) :
    model.modules = [] := by
  refine List.eq_nil_iff_forall_not_mem.mpr fun module member => ?_
  cases own _ (mem_modules.mp member)

section

variable {model : Model α} (built : build document implicit = .ok model)
  (basic : ∀ definition ∈ document.definitions, definition.isBasic = true)
include built basic

/-- Each variable of a model that basic definitions make is defined by one of them. -/
theorem definition_of_build {v : Variable α} (member : v ∈ model.vars) :
    ∃ definition ∈ document.definitions, Variable.ofDefinition definition = .ok v := by
  obtain ⟨definition, listed, w, u, made, checked, one, origin⟩ := origin_of_build built member
  obtain ⟨primitive, -⟩ := Variable.isPrimitive_of_isBasic (basic definition listed) checked
  rw [expandVariable_of_isPrimitive primitive] at one
  cases one
  rcases origin with rfl | ⟨_, none, -⟩
  · exact ⟨definition, listed, checked⟩
  · cases none

/-- Basic definitions make a model without modules. -/
theorem modules_of_build : model.modules = [] := by
  refine modules_eq_nil fun v member => ?_
  obtain ⟨definition, listed, checked⟩ := definition_of_build built basic member
  exact (Variable.isPrimitive_of_isBasic (basic definition listed) checked).2

end

end Model

/-! ## Linking models without modules -/

namespace Dependencies

variable {moment : Moment} {models others : Keyed Outline} {outline : Outline}

/-- Where nothing is instantiated, what sources lead to does not depend on other models. -/
theorem resolve_eq_of_modules_nil (plain : ∀ node ∈ outline, node.model? = none) :
    resolve moment models outline = resolve moment others outline := by
  funext name source
  unfold resolve
  split
  · rfl
  · rename_i head rest _
    cases found : outline.find? head with
    | none => rfl
    | some node =>
      have absent := plain node (mem_of_findNamed found)
      simp [absent]

variable (others) in
theorem exists_closure_of_modules_nil (plain : ∀ node ∈ outline, node.model? = none)
    (distinct : Distinct Node.name outline) (closes : ∃ found, closure moment models outline = .ok found) :
    ∃ found, closure moment others outline = .ok found := by
  rw [exists_closure_iff distinct] at closes ⊢
  have same : resolve moment models outline = resolve moment others outline :=
    resolve_eq_of_modules_nil plain
  have awaits : Awaits moment models outline = Awaits moment others outline := by
    unfold Awaits
    rw [same]
  simpa only [Resolves, Acyclic, same, awaits] using closes

end Dependencies

namespace LinkedModel

variable {linked : List (LinkedModel α)} {model : Model α} {result : LinkedModel α}

theorem node_of_modules_nil {v : Variable α} : node linked model [] v = v.node := by
  unfold node
  split <;> rfl

theorem Links.outline_of_modules_nil (links : Links linked model result) (plain : model.modules = []) :
    result.outline = model.outline := by
  have read := links.read
  rw [plain, List.forall₂_nil_left_iff] at read
  rw [links.outline, read]
  exact List.map_congr_left fun _ _ => node_of_modules_nil

theorem model?_of_mem_outline (plain : model.modules = []) :
    ∀ node ∈ model.outline, node.model? = none := by
  intro node member
  obtain ⟨v, declared, rfl⟩ := List.mem_map.mp member
  cases v with
  | stock | formula => rfl
  | module module =>
    have listed := Model.mem_modules.mpr declared
    rw [plain] at listed
    cases listed

theorem distinct_outline (distinct : Distinct Variable.name model.vars) :
    Distinct Node.name model.outline := by
  rw [Distinct, Model.outline, List.map_map]
  exact distinct

variable (linked) in
/-- A model that instantiates nothing can be linked, whatever the other models are, if its
dependencies can be closed. -/
theorem exists_link (plain : model.modules = []) (distinct : Distinct Variable.name model.vars)
    (closes : ∀ moment, ∃ found, Dependencies.closure moment [] model.outline = .ok found) :
    ∃ result, link linked model = .ok result := by
  have same : outlineWith linked model [] = model.outline := rfl
  have transfer := fun moment => Dependencies.exists_closure_of_modules_nil
    (linked.map fun model => (model.name, model.outline)) (model?_of_mem_outline plain)
    (distinct_outline distinct) (closes moment)
  obtain ⟨step, closedStep⟩ := transfer .step
  obtain ⟨start, closedStart⟩ := transfer .start
  refine exists_bind_eq_ok.mpr ⟨[], by rw [plain]; rfl, ?_⟩
  simp only [same, ite_self]
  exact exists_bind_eq_ok.mpr ⟨step, closedStep, exists_bind_eq_ok.mpr ⟨start, closedStart, _, rfl⟩⟩

end LinkedModel

/-! ## The library -/

theorem Library.name_of_build [Scalar α] {function : Stateful} {model : Model α}
    (built : Model.build (Library.model function) true = .ok model) :
    model.name = Stateful.modelName function.name := by
  obtain ⟨-, -, -, -, -, named, -⟩ := Model.build_eq_ok built
  rw [named]
  cases function <;> rfl

section

variable [Scalar α] {function : Stateful} {definition : Document.Variable α}
  (member : definition ∈ (Library.model function).definitions) {v : Variable α}
  (checked : Variable.ofDefinition definition = .ok v)
include member checked

/-- No variable of the library has a name like those made for calls. -/
theorem Library.head_ne_dollar : v.name.toList.head? ≠ some '$' := by
  obtain ⟨listed, -⟩ := name_mem_words member
  rw [Variable.name_of_ofDefinition checked, canonical_word listed]
  generalize definition.name = name at listed
  revert name
  decide

/-- The inputs of the library's models are no stocks. -/
theorem Library.isStock_of_mem_inputs (among : v.name ∈ function.inputs) : v.isStock = false := by
  rw [Variable.name_of_ofDefinition checked] at among
  cases definition with
  | flow | auxiliary | module =>
    obtain ⟨_, -, checked⟩ := bind_eq_ok.mp checked
    obtain rfl := pure_eq_ok.mp checked
    rfl
  | stock definition =>
    have apart : ∀ name ∈ ["output", "stock_1", "stock_2", "stock_3", "contents", "average"],
        Name.canonical name ∉ function.inputs := by
      rw [Stateful.inputs]
      decide
    refine absurd among (apart definition.name ?_)
    simp only [model] at member
    cases function with
    | smooth1 | delay1 | trend =>
      simp only [smooth1, delay1, trend, withInputs, Library.auxiliary, Library.flow, Library.stock,
        List.mem_cons, List.not_mem_nil, Document.Variable.stock.injEq, reduceCtorEq, false_or,
        or_false] at member
      simp [member]
    | smooth3 | delay3 =>
      simp only [smooth3, delay3, withInputs, Library.auxiliary, Library.flow, Library.stock,
        List.mem_cons, List.not_mem_nil, Document.Variable.stock.injEq, reduceCtorEq, false_or,
        or_false] at member
      rcases member with rfl | rfl | rfl <;> simp

end

/-! ## Compiling -/

namespace Project

section

variable {models : List (Model α)}

/-- What is done to list a model: nothing if it is listed, else what it instantiates is listed before it. -/
theorem visitModel_eq_ok {depth : Nat} {path done after : List Name} {name : Name}
    (visited : visitModel models (depth + 1) path done name = .ok after) :
    name ∈ done ∧ after = done ∨
    ∃ model next, name ∉ done ∧ name ∉ path ∧ findNamed Model.name name models = some model ∧
      model.instantiated.foldlM (visitModel models depth (name :: path)) done = .ok next ∧
      after = next ++ [name] := by
  unfold visitModel at visited
  split at visited
  · rename_i listed
    cases visited
    exact .inl ⟨listed, rfl⟩
  · rename_i fresh
    split at visited
    · cases visited
    · rename_i apart
      split at visited
      · cases visited
      · rename_i model found
        obtain ⟨next, folded, visited⟩ := bind_eq_ok.mp visited
        exact .inr ⟨model, next, fresh, apart, found, folded, (pure_eq_ok.mp visited).symm⟩

/-- Listing a model adds it, and nothing but models that are declared. -/
theorem mem_of_visitModel {depth : Nat} {path done after : List Name} {name : Name}
    (visited : visitModel models depth path done name = .ok after) :
    name ∈ after ∧ done ⊆ after ∧
      ∀ other ∈ after, other ∈ done ∨ (findNamed Model.name other models).isSome = true := by
  induction depth generalizing path done after name with
  | zero => cases visited
  | succ depth ih =>
    rcases visitModel_eq_ok visited with ⟨listed, rfl⟩ | ⟨model, next, -, -, found, folded, rfl⟩
    · exact ⟨listed, List.Subset.refl _, fun _ => .inl⟩
    · have below := foldlM_induction (fun _ next => done ⊆ next ∧
        ∀ other ∈ next, other ∈ done ∨ (findNamed Model.name other models).isSome = true)
        ⟨List.Subset.refl _, fun _ => .inl⟩ (fun _ _ _ before after _ holds stepped => by
          obtain ⟨-, kept, known⟩ := ih stepped
          refine ⟨List.Subset.trans holds.1 kept, fun other member => ?_⟩
          exact (known other member).elim (holds.2 other) .inr) folded
      refine ⟨List.mem_append_right _ (List.mem_singleton_self _),
        List.Subset.trans below.1 (List.subset_append_left ..), fun other member => ?_⟩
      rcases List.mem_append.mp member with earlier | last
      · exact below.2 other earlier
      · exact .inr (List.mem_singleton.mp last ▸ by rw [found]; rfl)

theorem mem_of_modelOrder {order : List Name} (ordered : modelOrder models = .ok order) :
    (∀ model ∈ models, model.name ∈ order) ∧
      ∀ name ∈ order, (findNamed Model.name name models).isSome = true := by
  have carried := foldlM_induction (fun taken order => (∀ name ∈ taken, name ∈ order) ∧
      ∀ name ∈ order, (findNamed Model.name name models).isSome = true) (by simp)
    (fun taken name _ before after _ holds stepped => by
      obtain ⟨listed, kept, known⟩ := mem_of_visitModel stepped
      refine ⟨fun other member => ?_, fun other member => (known other member).elim (holds.2 other) id⟩
      rcases List.mem_append.mp member with earlier | here
      · exact kept (holds.1 other earlier)
      · exact List.mem_singleton.mp here ▸ listed) ordered
  exact ⟨fun model member => carried.1 _ (List.mem_map_of_mem member), carried.2⟩

theorem mem_of_linkAll {order : List Name} {linked : List (LinkedModel α)}
    (done : linkAll models order = .ok linked) : ∀ name ∈ order, ∃ result ∈ linked,
      findNamed Model.name name models = some result.toModel := by
  refine foldlM_induction (fun taken linked => ∀ name ∈ taken, ∃ result ∈ linked,
      findNamed Model.name name models = some result.toModel) (by simp) ?_ done
  intro taken name _ before after _ holds stepped other member
  split at stepped
  · cases stepped
  · rename_i model found
    obtain ⟨last, isLinked, stepped⟩ := bind_eq_ok.mp stepped
    obtain rfl := pure_eq_ok.mp stepped
    rcases List.mem_append.mp member with earlier | here
    · obtain ⟨result, inside, same⟩ := holds other earlier
      exact ⟨result, List.mem_append_left _ inside, same⟩
    · obtain rfl := List.mem_singleton.mp here
      refine ⟨last, List.mem_append_right _ (List.mem_singleton_self _), ?_⟩
      rw [found, (LinkedModel.link_eq_ok isLinked).same]

/-- Models that instantiate nothing can be ordered and linked if their dependencies can be closed. -/
theorem exists_linkAll (plain : ∀ model ∈ models, model.modules = [])
    (distinct : ∀ model ∈ models, Distinct Variable.name model.vars)
    (closes : ∀ model ∈ models, ∀ moment,
      ∃ found, Dependencies.closure moment [] model.outline = .ok found) :
    ∃ order linked, modelOrder models = .ok order ∧ linkAll models order = .ok linked := by
  obtain ⟨order, ordered⟩ : ∃ order, modelOrder models = .ok order := by
    refine exists_foldlM (fun done name member => ?_) []
    obtain ⟨model, listed, rfl⟩ := List.mem_map.mp member
    obtain ⟨other, found⟩ := exists_findNamed listed (rfl : model.name = model.name)
    have none : other.instantiated = [] := by
      rw [Model.instantiated, plain other (mem_of_findNamed found)]
      rfl
    unfold visitModel
    split
    · exact ⟨_, rfl⟩
    · rw [if_neg List.not_mem_nil, found]
      dsimp only
      rw [none]
      exact ⟨_, rfl⟩
  refine ⟨order, (exists_foldlM (fun linked name member => ?_) []).imp fun _ => .intro ordered⟩
  obtain ⟨model, found⟩ := Option.isSome_iff_exists.mp ((mem_of_modelOrder ordered).2 name member)
  have listed := mem_of_findNamed found
  obtain ⟨result, isLinked⟩ := LinkedModel.exists_link linked (plain model listed)
    (distinct model listed) (closes model listed)
  rw [found]
  exact ⟨_, bind_eq_ok.mpr ⟨result, isLinked, rfl⟩⟩

end

variable [Scalar α] {document : Document.Project α} {project : Project α}

/-- The library is part of what a project declares, and the models of a compiled project are those
declared, each under a name of its own. -/
theorem models_of_compile (compiled : compile document = .ok project) :
    ∃ library models, Stateful.all.foldlM
        (fun models function => declareModel models (Library.model function) true) [] = .ok library ∧
      document.models.foldlM declareOwn library = .ok models ∧ Distinct Model.name models ∧
      (∀ model ∈ project.models, model.toModel ∈ models) ∧
      ∀ model ∈ models, ∃ linked ∈ project.models, linked.toModel = model := by
  obtain ⟨-, -, models, order, linked, declared, ordered, done, rfl⟩ := compile_eq_ok compiled
  simp only [declareAll, bind_eq_ok] at declared
  obtain ⟨library, first, second⟩ := declared
  have ascending := foldlM_induction (fun _ models => Ascending Model.name models)
    (ascending_of_library first)
    (fun _ _ _ _ _ _ holds stepped => ascending_of_declareModel holds (declareOwn_eq_ok stepped)) second
  have distinct := ascending.distinct
  refine ⟨library, models, first, second, distinct, fun model member => ?_, fun model member => ?_⟩
  · obtain ⟨_, -, found⟩ := List.mem_filterMap.mp member
    exact (linkAll_eq_ok done model (mem_of_findNamed found)).1
  · obtain ⟨result, inside, same⟩ :=
      mem_of_linkAll done model.name ((mem_of_modelOrder ordered).1 model member)
    have named : result.name = model.name := name_of_findNamed same
    obtain ⟨other, found⟩ := LinkedModel.exists_named? inside named
    have listed := (linkAll_eq_ok done other (mem_of_findNamed found)).1
    refine ⟨other, List.mem_filterMap.mpr ⟨model, member, found⟩, ?_⟩
    exact distinct.eq_of_name_eq listed member (LinkedModel.name_of_named? found)

omit [Scalar α] in
theorem exists_find? {models : List (Model α)} (distinct : Distinct Model.name models)
    (among : ∀ model ∈ project.models, model.toModel ∈ models)
    (linked : ∀ model ∈ models, ∃ linked ∈ project.models, linked.toModel = model) {model : Model α}
    (member : model ∈ models) :
    ∃ linked, project.find? model.name = some linked ∧ linked.toModel = model := by
  obtain ⟨result, inside, rfl⟩ := linked model member
  obtain ⟨other, found⟩ := LinkedModel.exists_named? inside rfl
  refine ⟨other, found, ?_⟩
  exact distinct.eq_of_name_eq (among other (mem_of_findNamed found)) member
    (LinkedModel.name_of_named? found)

theorem mem_of_declareOwn {library models : List (Model α)} {owns : List (Document.Model α)}
    (declared : owns.foldlM declareOwn library = .ok models) :
    library ⊆ models ∧ ∀ own ∈ owns, ∃ model ∈ models, Model.build own false = .ok model := by
  refine foldlM_induction (fun taken models => library ⊆ models ∧
    ∀ own ∈ taken, ∃ model ∈ models, Model.build own false = .ok model)
    ⟨List.Subset.refl _, by simp⟩ ?_ declared
  intro taken own _ before after _ holds stepped
  obtain ⟨model, built, inserted⟩ := declareModel_eq_ok.mp (declareOwn_eq_ok stepped)
  have kept : before ⊆ after := fun other member => (mem_insertNamed? inserted).mpr (.inr member)
  refine ⟨List.Subset.trans holds.1 kept, fun other member => ?_⟩
  rcases List.mem_append.mp member with earlier | here
  · obtain ⟨known, inside, same⟩ := holds.2 other earlier
    exact ⟨known, kept inside, same⟩
  · obtain rfl := List.mem_singleton.mp here
    exact ⟨model, (mem_insertNamed? inserted).mpr (.inl rfl), built⟩

theorem exists_own (compiled : compile document = .ok project) {own : Document.Model α}
    (listed : own ∈ document.models) : ∃ model, project.find? own.name = some model ∧
      Model.build own false = .ok model.toModel := by
  obtain ⟨library, models, -, declared, distinct, among, linked⟩ := models_of_compile compiled
  obtain ⟨model, member, built⟩ := (mem_of_declareOwn declared).2 own listed
  obtain ⟨result, found, rfl⟩ := exists_find? distinct among linked member
  obtain ⟨-, -, -, -, -, named, -⟩ := Model.build_eq_ok built
  exact ⟨result, named ▸ found, built⟩

/-- What is needed to link a library model: it instantiates nothing, and its dependencies can be
closed. -/
theorem closes_of_library {library : List (Model α)} (declared : Stateful.all.foldlM
      (fun models function => declareModel models (Library.model function) true) [] = .ok library) :
    ∀ model ∈ library, model.name ≠ mainModel ∧ model.modules = [] ∧
      Distinct Variable.name model.vars ∧
      ∀ moment, ∃ found, Dependencies.closure moment [] model.outline = .ok found := by
  intro model member
  obtain rfl := Except.ok.inj (Library.declare_library.symm.trans declared)
  obtain ⟨function, -, rfl⟩ := List.mem_map.mp member
  refine ⟨Stateful.modelName_ne_main function, Library.modules_checked function,
    (Model.ascending_of_build (Library.build_model function)).distinct, fun moment => ?_⟩
  rw [Library.outline_checked]
  exact ⟨_, Library.closure_outline moment [] function⟩

/-- A project of one model that instantiates nothing compiles, if the model can be built and its
dependencies can be closed: the library compiles beside every model. -/
theorem exists_compile (name : String) {timeSpec : TimeSpec α} (spec : timeSpec.validate = .ok ())
    {definitions : List (Document.Variable α)} {model : Model α}
    (built : Model.build ⟨mainModel, none, definitions⟩ false = .ok model) (plain : model.modules = [])
    (closes : ∀ moment, ∃ found, Dependencies.closure moment [] model.outline = .ok found) :
    ∃ single linked, compile ⟨name, timeSpec, [⟨mainModel, none, definitions⟩]⟩ = .ok single ∧
      single.timeSpec = timeSpec ∧ single.main? = some linked ∧ linked.toModel = model ∧
      ∀ other ∈ single.models, other.modules = [] := by
  obtain ⟨library, declared⟩ : ∃ library : List (Model α), Stateful.all.foldlM
      (fun models function => declareModel models (Library.model function) true) [] = .ok library :=
    ⟨_, Library.declare_library⟩
  have linkable := closes_of_library declared
  obtain ⟨-, -, -, -, -, named, ownSpec, -⟩ := Model.build_eq_ok built
  have ascending := ascending_of_library declared
  have fresh : ∀ other ∈ library, other.name ≠ model.name := fun other member =>
    named.symm ▸ (linkable other member).1
  obtain ⟨models, inserted⟩ := (exists_insertNamed?_iff ascending).mpr fresh
  have absent : findNamed Model.name mainModel library = none :=
    findNamed_eq_none.mpr fun other member => (linkable other member).1
  have all : declareAll ⟨name, timeSpec, [⟨mainModel, none, definitions⟩]⟩ = .ok models := by
    refine bind_eq_ok.mpr ⟨library, declared, ?_⟩
    rw [List.foldlM_cons]
    refine bind_eq_ok.mpr ⟨models, ?_, rfl⟩
    unfold declareOwn
    rw [absent]
    exact declareModel_eq_ok.mpr ⟨model, built, inserted⟩
  -- whatever holds of the library models and of the main model holds of all
  have each : ∀ {P : Model α → Prop}, (∀ other ∈ library, P other) → P model →
      ∀ other ∈ models, P other := by
    intro P first here other member
    exact ((mem_insertNamed? inserted).mp member).elim (· ▸ here) (first other)
  obtain ⟨order, linked, ordered, done⟩ := exists_linkAll
    (each (fun other member => (linkable other member).2.1) plain)
    (each (fun other member => (linkable other member).2.2.1) (Model.ascending_of_build built).distinct)
    (each (fun other member => (linkable other member).2.2.2) closes)
  have compiled' : compile ⟨name, timeSpec, [⟨mainModel, none, definitions⟩]⟩ =
      .ok ⟨name, timeSpec, models.filterMap fun model => LinkedModel.named? linked model.name⟩ := by
    refine bind_eq_ok.mpr ⟨(), spec, ?_⟩
    rw [List.all_cons, bne_self_eq_false]
    exact bind_eq_ok.mpr ⟨models, all, bind_eq_ok.mpr ⟨order, ordered, bind_eq_ok.mpr ⟨linked, done, rfl⟩⟩⟩
  obtain ⟨_, models', first, second, -, among, -⟩ := models_of_compile compiled'
  obtain rfl : models = models' := by
    refine Except.ok.inj (all.symm.trans ?_)
    exact bind_eq_ok.mpr ⟨_, first, second⟩
  obtain ⟨main, isMain, again⟩ := exists_own compiled' (List.mem_singleton_self _)
  refine ⟨_, main, compiled', rfl, isMain, Except.ok.inj (again.symm.trans built), fun other member => ?_⟩
  exact each (fun other member => (linkable other member).2.1) plain _ (among other member)

end Project

end StockFlow
