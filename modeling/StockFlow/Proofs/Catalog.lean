import StockFlow.Proofs.Linking

/-!
# The library as it is compiled

The library's models are the same in every project: what they are checked and linked to depends on
nothing else that a project declares. It is written down here, and compiling a project is proved equal
to checking and linking only the project's own models beside it.
-/

namespace StockFlow

variable {α : Type}

theorem Stateful.modelName_ne_main (function : Stateful) : modelName function.name ≠ mainModel := by
  cases function <;> decide

namespace Library

/-! ## Checked models -/

section

variable [Scalar α]

def computed (isFlow : Bool) (name : Name) (equation : Equation α) : StockFlow.Variable α :=
  .formula ⟨name, equation.print, equation, none, isFlow, false⟩

def integrated (name : Name) (initial : Equation α) (inflows outflows : List Name) :
    StockFlow.Variable α :=
  .stock ⟨name, initial.print, initial, inflows, outflows, false⟩

/-- The variables of a library model in the order of their names. -/
def vars : Stateful → List (StockFlow.Variable α)
  | .delay1 => [
      integrated "contents" (times (.reference "initial_value") (.reference "delay_time"))
        ["input"] ["output"],
      computed false "delay_time" (.natural 1),
      computed false "initial_value" (.reference "input"),
      computed false "input" (.natural 0),
      computed true "output" (dividedBy (.reference "contents") (.reference "delay_time"))]
  | .delay3 =>
    let contents : Equation α := times (.reference "initial_value") stageTime
    [ computed false "delay_time" (.natural 1),
      computed true "flow_1" (dividedBy (.reference "stock_1") stageTime),
      computed true "flow_2" (dividedBy (.reference "stock_2") stageTime),
      computed false "initial_value" (.reference "input"),
      computed false "input" (.natural 0),
      computed true "output" (dividedBy (.reference "stock_3") stageTime),
      integrated "stock_1" contents ["input"] ["flow_1"],
      integrated "stock_2" contents ["flow_1"] ["flow_2"],
      integrated "stock_3" contents ["flow_2"] ["output"]]
  | .smooth1 => [
      computed false "delay_time" (.natural 1),
      computed true "flow" (approach "input" "output" (.reference "delay_time")),
      computed false "initial_value" (.reference "input"),
      computed false "input" (.natural 0),
      integrated "output" (.reference "initial_value") ["flow"] []]
  | .smooth3 => [
      computed false "delay_time" (.natural 1),
      computed true "flow_1" (approach "input" "stock_1" stageTime),
      computed true "flow_2" (approach "stock_1" "stock_2" stageTime),
      computed true "flow_3" (approach "stock_2" "output" stageTime),
      computed false "initial_value" (.reference "input"),
      computed false "input" (.natural 0),
      integrated "output" (.reference "initial_value") ["flow_3"] [],
      integrated "stock_1" (.reference "initial_value") ["flow_1"] [],
      integrated "stock_2" (.reference "initial_value") ["flow_2"] []]
  | .trend =>
    let growth : Equation α :=
      .binary .add (.natural 1) (times (.reference "initial_value") (.reference "delay_time"))
    [ integrated "average" (dividedBy (.reference "input") growth) ["change_in_average"] [],
      computed true "change_in_average" (approach "input" "average" (.reference "delay_time")),
      computed false "delay_time" (.natural 1),
      computed false "initial_value" (.natural 0),
      computed false "input" (.natural 0),
      computed false "output" (.call "safediv" [
        minus (.reference "input") (.reference "average"),
        times (.reference "average") (.reference "delay_time")])]

def checked (function : Stateful) : StockFlow.Model α :=
  ⟨Stateful.modelName function.name, none, vars function, true⟩

section

variable {name : Name} {equation : Equation α}

theorem ofDefinition_auxiliary : StockFlow.Variable.ofDefinition (auxiliary name equation) =
    .ok (.formula ⟨Name.canonical name, equation.print, equation.mapNames Name.canonical, none, false,
      false⟩) := rfl

theorem ofDefinition_flow : StockFlow.Variable.ofDefinition (flow name equation) =
    .ok (.formula ⟨Name.canonical name, equation.print, equation.mapNames Name.canonical, none, true,
      false⟩) := rfl

theorem ofDefinition_stock {inflows outflows : List Name} :
    StockFlow.Variable.ofDefinition (stock name equation inflows outflows) =
      .ok (.stock ⟨Name.canonical name, equation.print, equation.mapNames Name.canonical,
        inflows.map Name.canonical, outflows.map Name.canonical, false⟩) := rfl

end

theorem declare_definitions (function : Stateful) :
    (model function : Document.Model α).definitions.foldlM StockFlow.Model.declare [] =
      .ok (vars function) := by
  cases function <;>
    simp (disch := decide) only [model, delay1, delay3, smooth1, smooth3, trend, withInputs, vars, computed,
      integrated, minus, times, dividedBy, approach, stageTime, Equation.natural, List.foldlM_cons,
      List.foldlM_nil, List.map_cons, List.map_nil, Option.map_some, bind, Except.bind, pure, Except.pure,
      StockFlow.Model.declare, Fault.attribute, ofDefinition_auxiliary, ofDefinition_flow,
      ofDefinition_stock, Equation.mapNames, Equation.mapNamesAll, canonical_word, insertNamed?,
      StockFlow.Variable.name, String.reduceEq, String.reduceLT, ↓reduceIte]

/-- Library models call primitives alone, so nothing is left to expand. -/
theorem expand_vars (function : Stateful) :
    (vars function : List (StockFlow.Variable α)).mapM StockFlow.Model.expandVariable =
      .ok ((vars function).map fun v => (v, [])) := by
  cases function <;> rfl

theorem checkFlows_vars (function : Stateful) :
    StockFlow.Model.checkFlows (vars function : List (StockFlow.Variable α)) = .ok () := by
  cases function <;> rfl

theorem build_model (function : Stateful) :
    StockFlow.Model.build (model function : Document.Model α) true = .ok (checked function) := by
  have made : (vars function : List (StockFlow.Variable α)).flatMap
      (fun _ => ([] : List (Document.Variable α))) = [] := by
    simp
  simp only [StockFlow.Model.build, bind_eq_ok, pure_eq_ok]
  refine ⟨_, declare_definitions function, _, expand_vars function, vars function, ?_, (),
    checkFlows_vars function, ?_⟩
  · simp [Function.comp_def, List.flatMap_map, made, pure, Except.pure]
  · cases function <;> rfl

/-- The library is declared without a fault, and its models stand in the order of their names. -/
theorem declare_library : Stateful.all.foldlM
    (fun models function => Project.declareModel models (model function : Document.Model α) true) [] =
      .ok (Stateful.all.map checked) := by
  simp only [Stateful.all, List.foldlM_cons, List.foldlM_nil, List.map_cons, List.map_nil, Option.map_some,
    bind, Except.bind, pure, Except.pure, Project.declareModel, build_model, checked, Stateful.modelName,
    Stateful.name, insertNamed?, String.reduceAppend, String.reduceEq, String.reduceLT, ↓reduceIte]

theorem modules_checked (function : Stateful) :
    (checked function : StockFlow.Model α).modules = [] := by
  cases function <;> rfl

end

/-! ## Linked models -/

/-- What the analysis of dependencies sees of a library model. -/
def outline : Stateful → Outline
  | .delay1 => [
      ⟨"contents", true, none, ["delay_time", "initial_value"]⟩,
      ⟨"delay_time", false, none, []⟩,
      ⟨"initial_value", false, none, ["input"]⟩,
      ⟨"input", false, none, []⟩,
      ⟨"output", false, none, ["contents", "delay_time"]⟩]
  | .delay3 => [
      ⟨"delay_time", false, none, []⟩,
      ⟨"flow_1", false, none, ["delay_time", "stock_1"]⟩,
      ⟨"flow_2", false, none, ["delay_time", "stock_2"]⟩,
      ⟨"initial_value", false, none, ["input"]⟩,
      ⟨"input", false, none, []⟩,
      ⟨"output", false, none, ["delay_time", "stock_3"]⟩,
      ⟨"stock_1", true, none, ["delay_time", "initial_value"]⟩,
      ⟨"stock_2", true, none, ["delay_time", "initial_value"]⟩,
      ⟨"stock_3", true, none, ["delay_time", "initial_value"]⟩]
  | .smooth1 => [
      ⟨"delay_time", false, none, []⟩,
      ⟨"flow", false, none, ["delay_time", "input", "output"]⟩,
      ⟨"initial_value", false, none, ["input"]⟩,
      ⟨"input", false, none, []⟩,
      ⟨"output", true, none, ["initial_value"]⟩]
  | .smooth3 => [
      ⟨"delay_time", false, none, []⟩,
      ⟨"flow_1", false, none, ["delay_time", "input", "stock_1"]⟩,
      ⟨"flow_2", false, none, ["delay_time", "stock_1", "stock_2"]⟩,
      ⟨"flow_3", false, none, ["delay_time", "output", "stock_2"]⟩,
      ⟨"initial_value", false, none, ["input"]⟩,
      ⟨"input", false, none, []⟩,
      ⟨"output", true, none, ["initial_value"]⟩,
      ⟨"stock_1", true, none, ["initial_value"]⟩,
      ⟨"stock_2", true, none, ["initial_value"]⟩]
  | .trend => [
      ⟨"average", true, none, ["delay_time", "initial_value", "input"]⟩,
      ⟨"change_in_average", false, none, ["average", "delay_time", "input"]⟩,
      ⟨"delay_time", false, none, []⟩,
      ⟨"initial_value", false, none, []⟩,
      ⟨"input", false, none, []⟩,
      ⟨"output", false, none, ["average", "delay_time", "input"]⟩]

/-- What each variable of a library model depends on at a moment. -/
def dependencies : Moment → Stateful → Keyed NameSet
  | .start, .delay1 => [
      ("contents", ["delay_time", "initial_value", "input"]),
      ("delay_time", []),
      ("initial_value", ["input"]),
      ("input", []),
      ("output", ["contents", "delay_time", "initial_value", "input"])]
  | .step, .delay1 => [
      ("contents", []),
      ("delay_time", []),
      ("initial_value", ["input"]),
      ("input", []),
      ("output", ["delay_time"])]
  | .start, .delay3 => [
      ("delay_time", []),
      ("flow_1", ["delay_time", "initial_value", "input", "stock_1"]),
      ("flow_2", ["delay_time", "initial_value", "input", "stock_2"]),
      ("initial_value", ["input"]),
      ("input", []),
      ("output", ["delay_time", "initial_value", "input", "stock_3"]),
      ("stock_1", ["delay_time", "initial_value", "input"]),
      ("stock_2", ["delay_time", "initial_value", "input"]),
      ("stock_3", ["delay_time", "initial_value", "input"])]
  | .step, .delay3 => [
      ("delay_time", []),
      ("flow_1", ["delay_time"]),
      ("flow_2", ["delay_time"]),
      ("initial_value", ["input"]),
      ("input", []),
      ("output", ["delay_time"]),
      ("stock_1", []),
      ("stock_2", []),
      ("stock_3", [])]
  | .start, .smooth1 => [
      ("delay_time", []),
      ("flow", ["delay_time", "initial_value", "input", "output"]),
      ("initial_value", ["input"]),
      ("input", []),
      ("output", ["initial_value", "input"])]
  | .step, .smooth1 => [
      ("delay_time", []),
      ("flow", ["delay_time", "input"]),
      ("initial_value", ["input"]),
      ("input", []),
      ("output", [])]
  | .start, .smooth3 => [
      ("delay_time", []),
      ("flow_1", ["delay_time", "initial_value", "input", "stock_1"]),
      ("flow_2", ["delay_time", "initial_value", "input", "stock_1", "stock_2"]),
      ("flow_3", ["delay_time", "initial_value", "input", "output", "stock_2"]),
      ("initial_value", ["input"]),
      ("input", []),
      ("output", ["initial_value", "input"]),
      ("stock_1", ["initial_value", "input"]),
      ("stock_2", ["initial_value", "input"])]
  | .step, .smooth3 => [
      ("delay_time", []),
      ("flow_1", ["delay_time", "input"]),
      ("flow_2", ["delay_time"]),
      ("flow_3", ["delay_time"]),
      ("initial_value", ["input"]),
      ("input", []),
      ("output", []),
      ("stock_1", []),
      ("stock_2", [])]
  | .start, .trend => [
      ("average", ["delay_time", "initial_value", "input"]),
      ("change_in_average", ["average", "delay_time", "initial_value", "input"]),
      ("delay_time", []),
      ("initial_value", []),
      ("input", []),
      ("output", ["average", "delay_time", "initial_value", "input"])]
  | .step, .trend => [
      ("average", []),
      ("change_in_average", ["delay_time", "input"]),
      ("delay_time", []),
      ("initial_value", []),
      ("input", []),
      ("output", ["delay_time", "input"])]

/-- No source in a library model leads through a module, so what other models look like is not read. -/
theorem closure_outline (moment : Moment) (models : Keyed Outline) (function : Stateful) :
    Dependencies.closure moment models (outline function) = .ok (dependencies moment function) := by
  cases moment <;> cases function <;> rfl

variable [Scalar α]

theorem outline_checked (function : Stateful) :
    (checked function : StockFlow.Model α).outline = outline function := by
  cases function <;> rfl

def linked (function : Stateful) : LinkedModel α :=
  { checked function with
    absoluteSources := []
    outline := outline function
    stepDependencies := dependencies .step function
    startDependencies := dependencies .start function }

/-- A library model is linked to the same result beside any models. -/
theorem link_checked (before : List (LinkedModel α)) (function : Stateful) :
    LinkedModel.link before (checked function) = .ok (linked function) := by
  have apart : (checked function : StockFlow.Model α).name ≠ mainModel := Stateful.modelName_ne_main function
  rw [LinkedModel.link, modules_checked, List.mapM_nil]
  simp only [pure_bind, if_neg apart, outline_checked, closure_outline]
  rfl

/-- The linked model behind a checked model of the library. -/
def linked? (model : StockFlow.Model α) : Option (LinkedModel α) :=
  if model.implicit then LinkedModel.named? (Stateful.all.map linked) model.name else none

theorem linked?_checked (function : Stateful) :
    linked? (checked function : StockFlow.Model α) = some (linked function) := by
  cases function <;> rfl

end Library

/-! ## Projects -/

section

variable [Scalar α]

theorem Model.implicit_of_build {document : Document.Model α} {implicit : Bool} {model : Model α}
    (built : build document implicit = .ok model) : model.implicit = implicit := by
  simp only [build, bind_eq_ok, pure_eq_ok] at built
  obtain ⟨_, -, _, -, _, -, _, -, rfl⟩ := built
  rfl

/-- Links a model, unless it is one of the library's. -/
def LinkedModel.linkBeside (linked : List (LinkedModel α)) (model : Model α) :
    Except Fault (LinkedModel α) :=
  match Library.linked? model with
  | some known => .ok known
  | none => link linked model

namespace Project

theorem linkBeside_eq_link {document : Document.Project α} {model : Model α}
    (comes : Comes document model) (linked : List (LinkedModel α)) :
    LinkedModel.linkBeside linked model = LinkedModel.link linked model := by
  unfold LinkedModel.linkBeside
  rcases comes with ⟨own, -, built⟩ | ⟨function, built⟩
  · rw [Library.linked?, Model.implicit_of_build built]
    rfl
  · obtain rfl := Except.ok.inj ((Library.build_model function).symm.trans built)
    rw [Library.linked?_checked, Library.link_checked]

/-- Links the models of a list of names one after the other, those of the library excepted. -/
def linkAllBeside (models : List (Model α)) (order : List Name) :
    Except Fault (List (LinkedModel α)) :=
  order.foldlM (fun linked name =>
    match findNamed Model.name name models with
    | none => .error (.model .badModelName name)
    | some model => do return linked ++ [← LinkedModel.linkBeside linked model]) []

/-- Compiles a project beside the compiled library. -/
def compileBeside (document : Document.Project α) : Except Fault (Project α) := do
  document.timeSpec.validate
  if document.models.all fun model => model.name != mainModel then
    .error (.model .badModelName ("no '" ++ mainModel ++ "' model"))
  else
    let models ← document.models.foldlM declareOwn (Stateful.all.map Library.checked)
    let order ← modelOrder models
    let linked ← linkAllBeside models order
    return ⟨document.name, document.timeSpec,
      models.filterMap fun model => LinkedModel.named? linked model.name⟩

theorem declareAll_eq (document : Document.Project α) :
    declareAll document = document.models.foldlM declareOwn (Stateful.all.map Library.checked) := by
  rw [declareAll, Library.declare_library]
  rfl

theorem linkAll_eq {document : Document.Project α} {models : List (Model α)}
    (declared : declareAll document = .ok models) (order : List Name) :
    linkAll models order = linkAllBeside models order := by
  refine congrArg (fun step => order.foldlM step []) (funext₂ fun linked name => ?_)
  cases found : findNamed Model.name name models with
  | none => rfl
  | some model =>
    have comes := comes_of_declareAll declared model (mem_of_findNamed found)
    simp only [linkBeside_eq_link comes]

/-- A project compiles to the same result as beside the compiled library. -/
theorem compile_eq (document : Document.Project α) : compile document = compileBeside document := by
  refine bind_congr fun _ => ?_
  rw [← declareAll_eq]
  refine ite_congr rfl (fun _ => rfl) fun _ => ?_
  cases declared : declareAll document with
  | error fault => rfl
  | ok models =>
    change modelOrder models >>= _ = modelOrder models >>= _
    exact bind_congr fun order => by rw [linkAll_eq declared]

end Project
end
end StockFlow
