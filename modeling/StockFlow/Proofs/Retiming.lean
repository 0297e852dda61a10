import StockFlow.Proofs.History
import StockFlow.Proofs.Linking

/-!
# Time specifications

Nothing but the clock of a run depends on the time specifications of a project: documents that differ in
nothing else are compiled to projects that differ in nothing else, and are planned alike.
-/

namespace StockFlow

variable {α : Type}

/-! ## Changed specifications -/

section

variable (change : TimeSpec α → TimeSpec α)

def Document.Model.retime (model : Document.Model α) : Document.Model α :=
  { model with timeSpec? := model.timeSpec?.map change }

def Document.Project.retime (document : Document.Project α) : Document.Project α :=
  { document with
    timeSpec := change document.timeSpec
    models := document.models.map (·.retime change) }

def Model.retime (model : Model α) : Model α := { model with timeSpec? := model.timeSpec?.map change }

def LinkedModel.retime (model : LinkedModel α) : LinkedModel α :=
  { model with timeSpec? := model.timeSpec?.map change }

def Project.retime (project : Project α) : Project α :=
  { project with
    timeSpec := change project.timeSpec
    models := project.models.map (·.retime change) }

end

variable {change : TimeSpec α → TimeSpec α}

/-! ## Compiling -/

namespace LinkedModel

variable {linked : List (LinkedModel α)}

theorem named?_retime (name : Name) :
    named? (linked.map (retime change)) name = (named? linked name).map (retime change) :=
  findNamed_map fun _ => rfl

theorem readAbsolute_retime (module : Module) :
    readAbsolute (linked.map (retime change)) module = readAbsolute linked module := by
  unfold readAbsolute
  rw [named?_retime]
  cases named? linked module.model <;> rfl

theorem isRootPath_retime (main : Model α) (path : Path) :
    isRootPath (linked.map (retime change)) (main.retime change) path = isRootPath linked main path := by
  have find : (main.retime change).find? = main.find? := rfl
  unfold isRootPath
  rw [find]
  generalize Path.split path = steps
  obtain ⟨head, rest⟩ := steps
  dsimp only
  cases main.find? head with
  | none => rfl
  | some v =>
    cases rest with
    | none => rfl
    | some rest =>
      dsimp only
      cases v.module? with
      | none => rfl
      | some module =>
        simp only [Option.bind_some, named?_retime]
        cases named? linked module.model <;> rfl

theorem link_retime {model : Model α} {result : LinkedModel α} (done : link linked model = .ok result) :
    link (linked.map (retime change)) (model.retime change) = .ok (result.retime change) := by
  have outlines : (linked.map (retime change)).map (fun model => (model.name, model.outline)) =
      linked.map fun model => (model.name, model.outline) := by
    rw [List.map_map]
    rfl
  have read : readAbsolute (linked.map (retime change)) = readAbsolute linked :=
    funext readAbsolute_retime
  have wide : ∀ sources, outlineWith (linked.map (retime change)) (model.retime change) sources =
      outlineWith linked model sources := by
    intro sources
    simp only [outlineWith, awaited, isRootPath_retime]
    rfl
  simp only [link, bind_eq_ok, pure_eq_ok] at done
  obtain ⟨sources, own, step, closedStep, start, closedStart, rfl⟩ := done
  simp only [link, bind_eq_ok, pure_eq_ok, read, wide, outlines]
  exact ⟨sources, own, step, closedStep, start, closedStart, rfl⟩

end LinkedModel

theorem findNamed_retime {models : List (Model α)} (name : Name) :
    findNamed Model.name name (models.map (Model.retime change)) =
      (findNamed Model.name name models).map (Model.retime change) :=
  findNamed_map fun _ => rfl

theorem Model.build_retime [Scalar α] {document : Document.Model α} {implicit : Bool} {model : Model α}
    (built : build document implicit = .ok model) :
    build (document.retime change) implicit = .ok (model.retime change) := by
  simp only [build, bind_eq_ok, pure_eq_ok] at built ⊢
  obtain ⟨declared, first, expanded, second, vars, third, _, flows, rfl⟩ := built
  exact ⟨declared, first, expanded, second, vars, third, (), flows, rfl⟩

namespace Project

variable {models : List (Model α)}

theorem visitModel_retime (depth : Nat) (path : List Name) :
    visitModel (models.map (Model.retime change)) depth path = visitModel models depth path := by
  induction depth generalizing path with
  | zero => rfl
  | succ depth ih =>
    funext done name
    simp only [visitModel, findNamed_retime, ih]
    cases findNamed Model.name name models <;> rfl

theorem modelOrder_retime : modelOrder (models.map (Model.retime change)) = modelOrder models := by
  have names : (models.map (Model.retime change)).map Model.name = models.map Model.name := by
    rw [List.map_map]
    rfl
  unfold modelOrder
  rw [names, List.length_map, visitModel_retime]

theorem linkAll_retime {order : List Name} {linked : List (LinkedModel α)}
    (done : linkAll models order = .ok linked) :
    linkAll (models.map (Model.retime change)) order = .ok (linked.map (LinkedModel.retime change)) := by
  rw [linkAll, ← List.map_id order]
  refine foldlM_map_eq_ok (g := List.map (LinkedModel.retime change)) (s := []) ?_ done
  intro linked name next stepped
  dsimp only [id]
  rw [findNamed_retime]
  cases found : findNamed Model.name name models with
  | none =>
    rw [found] at stepped
    cases stepped
  | some model =>
    simp only [found, bind_eq_ok, pure_eq_ok] at stepped
    obtain ⟨last, linked, rfl⟩ := stepped
    exact bind_eq_ok.mpr ⟨_, LinkedModel.link_retime linked, by simp [pure_eq_ok]⟩

/-- The models that are found among linked ones. -/
theorem filterMap_retime {linked : List (LinkedModel α)} :
    (models.map (Model.retime change)).filterMap
        (fun model => LinkedModel.named? (linked.map (LinkedModel.retime change)) model.name) =
      (models.filterMap fun model => LinkedModel.named? linked model.name).map
        (LinkedModel.retime change) := by
  rw [List.filterMap_map, List.map_filterMap]
  apply List.filterMap_congr
  intro model _
  exact LinkedModel.named?_retime _

variable [Scalar α]

theorem declareModel_retime {document : Document.Model α} {implicit : Bool} {result : List (Model α)}
    (declared : declareModel models document implicit = .ok result) :
    declareModel (models.map (Model.retime change)) (document.retime change) implicit =
      .ok (result.map (Model.retime change)) := by
  obtain ⟨model, built, inserted⟩ := declareModel_eq_ok.mp declared
  refine declareModel_eq_ok.mpr ⟨model.retime change, Model.build_retime built, ?_⟩
  have moved : insertNamed? Model.name (model.retime change) (models.map (Model.retime change)) =
      (insertNamed? Model.name model models).map (List.map (Model.retime change)) :=
    insertNamed?_map (fun _ => rfl) model models
  rw [moved, inserted]
  rfl

/-- Documents that differ in time specifications only are compiled to such projects. -/
theorem retime_eq_of_compile {one two : Document.Project α} {first second : Project α}
    (alike : one.retime change = two.retime change) (compiled : compile one = .ok first)
    (compiled' : compile two = .ok second) : first.retime change = second.retime change := by
  have parts : ∀ {document : Document.Project α} {project : Project α},
      compile document = .ok project → ∃ library models order linked,
        Stateful.all.foldlM (fun models function =>
          declareModel models (Library.model (α := α) function) true) [] = .ok library ∧
        (document.retime change).models.foldlM (fun models own => declareModel models own false)
          (library.map (Model.retime change)) = .ok models ∧
        modelOrder models = .ok order ∧ linkAll models order = .ok linked ∧
        project.retime change = ⟨document.name, change document.timeSpec,
          models.filterMap fun model => LinkedModel.named? linked model.name⟩ := by
    intro document project compiled
    obtain ⟨-, -, models, order, linked, all, sorted, done, rfl⟩ := compile_eq_ok compiled
    obtain ⟨library, shared, declared⟩ := bind_eq_ok.mp all
    refine ⟨library, models.map (Model.retime change), order,
      linked.map (LinkedModel.retime change), shared, ?_, ?_, linkAll_retime done, ?_⟩
    · exact foldlM_map_eq_ok (fun models own next stepped =>
        declareModel_retime (declareOwn_eq_ok stepped)) declared
    · rw [modelOrder_retime, sorted]
    · rw [filterMap_retime]
      rfl
  obtain ⟨library, models, order, linked, shared, declared, sorted, done, same⟩ := parts compiled
  obtain ⟨library', models', order', linked', shared', declared', sorted', done', same'⟩ :=
    parts compiled'
  cases shared.symm.trans shared'
  rw [alike] at declared
  cases declared.symm.trans declared'
  cases sorted.symm.trans sorted'
  cases done.symm.trans done'
  obtain ⟨name, spec, -⟩ := Document.Project.mk.inj alike
  rw [same, same', name, spec]

omit [Scalar α] in
theorem find?_retime (project : Project α) (name : Name) :
    (project.retime change).find? name = (project.find? name).map (LinkedModel.retime change) :=
  LinkedModel.named?_retime name

omit [Scalar α] in
theorem runSpec_retime (project : Project α) :
    (project.retime change).runSpec = change project.runSpec := by
  unfold runSpec main?
  rw [find?_retime]
  cases project.find? mainModel with
  | none => rfl
  | some main => cases spec : main.timeSpec? <;> simp [LinkedModel.retime, retime, spec]

end Project

/-! ## Planning -/

def Clock.resave (saveStep : α) (clock : Clock α) : Clock α := { clock with saveStep }

theorem Layout.place_retime (project : Project α) (depth reserved shift : Nat) (name : Name)
    (model : LinkedModel α) (wires : Keyed Path) :
    place (project.retime change) depth reserved shift name (model.retime change) wires =
      place project depth reserved shift name model wires := by
  induction depth generalizing reserved shift name model wires with
  | zero => rfl
  | succ depth ih =>
    simp only [place]
    refine congrArg₂ bind (congrArg (fun place => placeAll place model.modules _) ?_) rfl
    funext module shift
    rw [Project.find?_retime]
    cases project.find? module.model with
    | none => rfl
    | some inner => exact ih 0 shift module.name inner (Model.wires module)

namespace Scope

variable [Scalar α] (scope : Scope α) (saveStep : α)

/-- A scope whose clock may save at other times. -/
def resave : Scope α := { scope with clock := scope.clock.resave saveStep }

theorem reference_resave (name : Name) :
    (scope.resave saveStep).reference name = scope.reference name := by
  unfold reference
  cases ClockReference.ofName? name with
  | none => rfl
  | some clock => cases clock <;> rfl

mutual

theorem lower_resave : ∀ equation : Equation α,
    (scope.resave saveStep).lower equation = scope.lower equation
  | .constant _ _ => by rw [lower, lower]
  | .reference name => by rw [lower, lower, reference_resave]
  | .call function arguments => by
    rw [lower, lower, lowerAll_resave arguments]
    rfl
  | .group inner => by rw [lower, lower, lower_resave inner]
  | .unary operator operand => by
    cases operator <;> rw [lower, lower, lower_resave operand]
  | .binary operator left right => by
    rw [lower, lower, lower_resave left, lower_resave right]
  | .conditional condition whenTrue whenFalse => by
    rw [lower, lower, lower_resave condition, lower_resave whenTrue, lower_resave whenFalse]

theorem lowerAll_resave : ∀ equations : List (Equation α),
    lowerAll (scope.resave saveStep) equations = lowerAll scope equations
  | [] => by rw [lowerAll, lowerAll]
  | first :: rest => by rw [lowerAll, lowerAll, lower_resave first, lowerAll_resave rest]

end

theorem formulaTerm_resave (formula : Formula α) :
    (scope.resave saveStep).formulaTerm formula = scope.formulaTerm formula := by
  unfold formulaTerm
  rw [lower_resave]

end Scope

namespace Site

variable [Scalar α] (wired : Wired) (model : LinkedModel α) (clock : Clock α) (saveStep : α)

theorem variableCode_retime (v : Variable α) (phase : Phase) :
    variableCode ⟨wired, model.retime change, clock.resave saveStep⟩ v phase =
      variableCode ⟨wired, model, clock⟩ v phase := by
  have inner : ∀ owner, scope ⟨wired, model.retime change, clock.resave saveStep⟩ owner =
      (scope ⟨wired, model, clock⟩ owner).resave saveStep := fun _ => rfl
  have inputs : (⟨wired, model.retime change, clock.resave saveStep⟩ : Site α).inputs =
      (⟨wired, model, clock⟩ : Site α).inputs := rfl
  unfold variableCode
  rw [inputs]
  cases (⟨wired, model, clock⟩ : Site α).inputs.get? v.name with
  | some source => rfl
  | none =>
    cases v with
    | module => rfl
    | stock stock =>
      cases phase <;> simp only [stockCode, inner, Scope.lower_resave] <;> rfl
    | formula formula =>
      simp only [inner, Scope.formulaTerm_resave]
      rfl

theorem code_retime : code ⟨wired, model.retime change, clock.resave saveStep⟩ =
    code ⟨wired, model, clock⟩ := by
  have each : ∀ phase, phaseCode ⟨wired, model.retime change, clock.resave saveStep⟩ phase =
      phaseCode ⟨wired, model, clock⟩ phase := by
    intro phase
    have schedules : schedule ⟨wired, model.retime change, clock.resave saveStep⟩ phase =
        schedule ⟨wired, model, clock⟩ phase := by
      cases phase <;> rfl
    simp only [phaseCode, schedules, variableCode_retime]
    rfl
  simp only [code, each]
  rfl

end Site

namespace Coded

variable [Scalar α] (project : Project α) (clock : Clock α) (saveStep : α)

mutual

theorem ofWired_retime : ∀ wired : Wired,
    ofWired (project.retime change) (clock.resave saveStep) wired = ofWired project clock wired
  | ⟨name, model, shift, size, slots, inputs, children⟩ => by
    rw [ofWired, ofWired, allOfWired_retime children, Project.find?_retime]
    cases project.find? model with
    | none => rfl
    | some linked => simp only [Option.map_some, Site.code_retime]

theorem allOfWired_retime : ∀ wired : List Wired,
    allOfWired (project.retime change) (clock.resave saveStep) wired = allOfWired project clock wired
  | [] => by rw [allOfWired, allOfWired]
  | first :: rest => by rw [allOfWired, allOfWired, ofWired_retime first, allOfWired_retime rest]

end

end Coded

/-- Projects that differ in time specifications only are planned alike if their clocks differ in nothing
but how often they save. -/
theorem Plan.root_eq_of_retime [Scalar α] {first second : Project α} {plan other : Plan α} {saveStep : α}
    (alike : first.retime change = second.retime change) (planned : ofProject first = .ok plan)
    (planned' : ofProject second = .ok other)
    (clock : plan.clock.resave saveStep = other.clock.resave saveStep) : plan.root = other.root := by
  have parts : ∀ {project : Project α} {plan : Plan α}, ofProject project = .ok plan →
      ∃ main layout, (project.retime change).main? = some main ∧
        Layout.ofProject (project.retime change) main = .ok layout ∧
        Coded.ofWired (project.retime change) (plan.clock.resave saveStep) layout.wired =
          .ok plan.root := by
    intro project plan planned
    obtain ⟨main, layout, root, found, -, placed, coded, rfl⟩ := ofProject_eq_ok planned
    refine ⟨main.retime change, layout, ?_, ?_, ?_⟩
    · rw [Project.main?, Project.find?_retime]
      exact congrArg _ found
    · rw [Layout.ofProject, Layout.place_retime, ← placed, Layout.ofProject]
      simp only [Project.retime, List.length_map]
    · rw [Coded.ofWired_retime]
      exact coded
  obtain ⟨main, layout, found, placed, coded⟩ := parts planned
  obtain ⟨main', layout', found', placed', coded'⟩ := parts planned'
  rw [alike] at found placed coded
  cases found.symm.trans found'
  cases placed.symm.trans placed'
  rw [clock] at coded
  exact Except.ok.inj (coded.symm.trans coded')

end StockFlow
