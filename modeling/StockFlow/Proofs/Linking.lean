import StockFlow.Project
import StockFlow.Proofs.Closure
import StockFlow.Proofs.Declarations

/-!
# Linked models

A compiled project has each of its models linked to those that it instantiates, which stand in the
project themselves, and each of them is a checked model of the document or of the library.
-/

namespace StockFlow

variable {α : Type}

/-! ## Modules -/

namespace Model

variable {model : Model α}

theorem mem_modules {module : Module} : module ∈ model.modules ↔ .module module ∈ model.vars := by
  rw [modules, List.mem_filterMap]
  constructor
  · rintro ⟨v, member, same⟩
    cases v <;> cases same
    exact member
  · exact fun member => ⟨_, member, rfl⟩

theorem distinct_modules (distinct : Distinct Variable.name model.vars) :
    Distinct Module.name model.modules := by
  have names : model.modules.map Module.name =
      (model.vars.filter Variable.isModule).map Variable.name := by
    rw [modules, List.map_filterMap, ← List.filterMap_eq_map, List.filterMap_filter]
    refine List.filterMap_congr fun v _ => ?_
    cases v <;> rfl
  rw [Distinct, names]
  exact distinct.sublist (List.filter_sublist.map _)

end Model

/-! ## One model -/

namespace LinkedModel

variable {linked : List (LinkedModel α)} {model : Model α} {result : LinkedModel α}

theorem name_of_named? {name : Name} (found : named? linked name = some result) :
    result.name = name := by
  have same := name_of_findNamed found
  exact same

theorem exists_named? {model : LinkedModel α} (member : model ∈ linked) {name : Name}
    (named : model.name = name) : ∃ result, named? linked name = some result :=
  exists_findNamed member named

/-- What was read to know the absolute paths of a module: its model, which has all inputs. -/
theorem readAbsolute_eq_ok {module : Module} {entry : Name × NameSet}
    (read : readAbsolute linked module = .ok entry) :
    ∃ inner, named? linked module.model = some inner ∧
      (∀ input ∈ module.inputs, inner.has input.target = true) ∧ entry.1 = module.name ∧
      ∀ path, path ∈ entry.2 ↔ path ∈ inner.absolutePaths ∨
        ∃ input ∈ module.inputs, input.source = .absolute path := by
  unfold readAbsolute at read
  split at read
  · cases read
  · rename_i inner found
    simp only [bind_eq_ok, pure_eq_ok, forM_eq_ok] at read
    obtain ⟨_, targets, rfl⟩ := read
    refine ⟨inner, found, fun input member => ?_, rfl, fun path => ?_⟩
    · have here := targets input member
      split at here
      · assumption
      · cases here
    · rw [NameSet.mem_ofList, List.mem_append, List.mem_filterMap]
      refine or_congr_right (exists_congr fun input => and_congr_right fun _ => ?_)
      cases input.source <;> simp

/-- What the analysis sees of a variable once the absolute paths of all modules are known. -/
def node (linked : List (LinkedModel α)) (model : Model α) (absoluteSources : Keyed NameSet)
    (v : Variable α) : Node :=
  let awaits := (absoluteSources.get? v.name).elim [] (awaited linked model v.name)
  if model.name = mainModel then { v.node with sources := NameSet.insertAll awaits v.sources }
  else v.node

/-- What was done to link a model: the absolute paths of its modules were read, and its dependencies
closed among the outlines of the linked models. -/
structure Links (linked : List (LinkedModel α)) (model : Model α) (result : LinkedModel α) : Prop where
  same : result.toModel = model
  read : List.Forall₂ (fun module entry => readAbsolute linked module = .ok entry) model.modules
    result.absoluteSources
  outline : result.outline = model.vars.map (node linked model result.absoluteSources)
  step : Dependencies.closure .step (linked.map fun model => (model.name, model.outline))
    result.outline = .ok result.stepDependencies
  start : Dependencies.closure .start (linked.map fun model => (model.name, model.outline))
    result.outline = .ok result.startDependencies

theorem outline_eq {absoluteSources : Keyed NameSet} :
    (if model.name = mainModel then outlineWith linked model absoluteSources else model.outline) =
      model.vars.map (node linked model absoluteSources) := by
  unfold node
  split
  · refine List.map_congr_left fun v _ => ?_
    cases Keyed.get? absoluteSources v.name <;> rfl
  · rfl

theorem link_eq_ok (done : link linked model = .ok result) : Links linked model result := by
  simp only [link, bind_eq_ok, pure_eq_ok, mapM_eq_ok] at done
  obtain ⟨absoluteSources, read, step, closedStep, start, closedStart, rfl⟩ := done
  exact ⟨rfl, read, outline_eq, closedStep, closedStart⟩

variable {absoluteSources : Keyed NameSet} {v : Variable α}

theorem name_node : (node linked model absoluteSources v).name = v.name := by
  unfold node
  split <;> rfl

theorem isStock_node : (node linked model absoluteSources v).isStock = v.isStock := by
  unfold node
  split <;> rfl

theorem isGiven_node {moment : Moment} (computed : moment = .step → v.isStock = false) :
    Dependencies.isGiven moment (node linked model absoluteSources v) = false := by
  refine Bool.eq_false_iff.mpr fun given => ?_
  obtain ⟨isStock, step⟩ := Dependencies.of_isGiven given
  rw [isStock_node, computed step] at isStock
  cases isStock

theorem model?_node :
    (node linked model absoluteSources v).model? = v.module?.map Module.model := by
  unfold node
  split <;> rfl

theorem mem_sources_node_iff (isMain : model.name = mainModel) {source : Path} :
    source ∈ (node linked model absoluteSources v).sources ↔
      source ∈ (absoluteSources.get? v.name).elim [] (awaited linked model v.name) ∨
        source ∈ v.sources := by
  rw [node, if_pos isMain]
  exact NameSet.mem_insertAll

theorem mem_sources_node {source : Path} (member : source ∈ v.sources) :
    source ∈ (node linked model absoluteSources v).sources := by
  unfold node
  split
  · exact NameSet.mem_insertAll.mpr (.inr member)
  · exact member

/-- A source of a node is one of its variable, or it is read inside a module. -/
theorem of_mem_sources_node {source : Path}
    (among : source ∈ (node linked model absoluteSources v).sources) :
    source ∈ v.sources ∨ ∃ entry ∈ absoluteSources, source ∈ entry.2 := by
  by_cases isMain : model.name = mainModel
  · rcases (mem_sources_node_iff isMain).mp among with waits | own
    · cases found : absoluteSources.get? v.name with
      | none =>
        rw [found] at waits
        cases waits
      | some paths =>
        rw [found] at waits
        exact .inr ⟨_, Keyed.mem_of_get? found, List.mem_of_mem_filter waits⟩
    · exact .inl own
  · rw [node, if_neg isMain] at among
    exact .inl among

theorem find?_nodes (name : Name) :
    Outline.find? (model.vars.map (node linked model absoluteSources)) name =
      (model.find? name).map (node linked model absoluteSources) :=
  findNamed_map fun _ => name_node

/-- What each variable of a linked model depends on at a moment. -/
def dependencies (model : LinkedModel α) : Moment → Keyed NameSet
  | .start => model.startDependencies
  | .step => model.stepDependencies

theorem Links.closure (links : Links linked model result) (moment : Moment) :
    Dependencies.closure moment (linked.map fun model => (model.name, model.outline))
      result.outline = .ok (result.dependencies moment) := by
  cases moment
  · exact links.start
  · exact links.step

theorem Links.find?_outline (links : Links linked model result) (name : Name) :
    result.outline.find? name = (model.find? name).map (node linked model result.absoluteSources) := by
  rw [links.outline, find?_nodes]

theorem Links.exists_head (links : Links linked model result) {moment : Moment}
    {models : Keyed Outline} {owner : Name} {source : Path} {target : Option Node}
    (resolved : Dependencies.resolve moment models result.outline owner source = .ok target) :
    ∃ v ∈ model.vars, v.name = Path.head source := by
  have declared : ∀ {name known}, result.outline.find? name = some known →
      ∃ v ∈ model.vars, v.name = name := by
    intro name known found
    rw [links.find?_outline] at found
    obtain ⟨v, found, -⟩ := Option.map_eq_some_iff.mp found
    exact ⟨v, mem_of_findNamed found, name_of_findNamed found⟩
  rcases Dependencies.resolve_eq_ok resolved with
    ⟨undotted, _, found, -⟩ | ⟨head, _, _, _, _, _, -, -, split, found, -⟩
  · rw [Path.head_of_not_dotted undotted]
    exact declared found
  · rw [Path.head, split]
    exact declared found

theorem Links.names_absoluteSources (links : Links linked model result) :
    result.absoluteSources.map Prod.fst = model.modules.map Module.name := by
  refine map_eq_of_forall₂ links.read fun _ _ read => ?_
  obtain ⟨_, -, -, named, -⟩ := readAbsolute_eq_ok read
  exact named

theorem Links.sources_node (links : Links linked model result)
    (distinct : Distinct Variable.name model.vars) (member : v ∈ model.vars)
    (own : v.isModule = false) :
    (node linked model result.absoluteSources v).sources = v.sources := by
  have absent : result.absoluteSources.get? v.name = none := by
    refine Option.eq_none_iff_forall_ne_some.mpr fun paths found => ?_
    have listed : v.name ∈ result.absoluteSources.map Prod.fst :=
      List.mem_map_of_mem (f := Prod.fst) (Keyed.mem_of_get? found)
    rw [links.names_absoluteSources] at listed
    obtain ⟨module, among, named⟩ := List.mem_map.mp listed
    rw [distinct.eq_of_name_eq member (Model.mem_modules.mp among) named.symm] at own
    cases own
  unfold node
  rw [absent]
  split <;> rfl

/-- The modules of the main model wait for the absolute paths that are read inside them. -/
theorem Links.mem_sources_of_absolute (links : Links linked model result)
    (distinct : Distinct Variable.name model.vars) (main : model.name = mainModel) {module : Module}
    (member : module ∈ model.modules) {path : Path}
    (read : ∀ entry, readAbsolute linked module = .ok entry → path ∈ entry.2)
    (outside : Path.head path ≠ module.name) (isRoot : isRootPath linked model path = true) :
    path ∈ (node linked model result.absoluteSources (.module module)).sources := by
  obtain ⟨⟨name, paths⟩, inside, here⟩ := exists_right_of_mem links.read member
  have unique : Distinct Prod.fst result.absoluteSources := by
    rw [Distinct, links.names_absoluteSources]
    exact Model.distinct_modules distinct
  obtain ⟨_, -, -, rfl, -⟩ := readAbsolute_eq_ok here
  have found : result.absoluteSources.get? (Variable.module (α := α) module).name = some paths :=
    Keyed.get?_of_mem unique inside
  rw [node, if_pos main, found]
  refine NameSet.mem_insertAll.mpr (.inl (List.mem_filter.mpr ⟨read _ here, ?_⟩))
  simpa [isRoot, Variable.name] using outside

theorem distinct_nodes (distinct : Distinct Variable.name model.vars) :
    Distinct Node.name (model.vars.map (node linked model absoluteSources)) := by
  have names : (model.vars.map (node linked model absoluteSources)).map Node.name =
      model.vars.map Variable.name := by
    rw [List.map_map]
    exact List.map_congr_left fun v _ => name_node
  rwa [Distinct, names]

theorem Links.distinct (links : Links linked model result)
    (distinct : Distinct Variable.name model.vars) : Distinct Node.name result.outline :=
  links.outline ▸ distinct_nodes distinct

/-- Each source of a variable leads somewhere, and the variable depends on what it leads to. At a step
this is so for all but stocks. -/
theorem Links.resolve (links : Links linked model result)
    (distinct : Distinct Variable.name model.vars) (moment : Moment) (member : v ∈ model.vars)
    (computed : moment = .step → v.isStock = false) {source : Path}
    (among : source ∈ (node linked model result.absoluteSources v).sources) :
    ∃ target, Dependencies.resolve moment (linked.map fun model => (model.name, model.outline))
        result.outline v.name source = .ok target ∧
      ∀ next, target = some next → next.name ∈ Order.needs (result.dependencies moment) v.name := by
  have inside : node linked model result.absoluteSources v ∈ result.outline :=
    links.outline ▸ List.mem_map_of_mem member
  have explains :=
    Dependencies.explains_of_closure (links.closure moment) (links.distinct distinct) inside
  have open_ : Dependencies.isGiven moment (node linked model result.absoluteSources v) = false :=
    isGiven_node computed
  obtain ⟨target, resolved⟩ := explains.resolved open_ source among
  rw [name_node] at resolved
  refine ⟨target, resolved, ?_⟩
  rintro next rfl
  have needed := explains.direct next ⟨open_, source, among, name_node.symm ▸ resolved⟩
  rwa [name_node] at needed

end LinkedModel

/-! ## Declared models -/

namespace Project

section

variable [Scalar α]

theorem declareModel_eq_ok {models result : List (Model α)} {document : Document.Model α}
    {implicit : Bool} : declareModel models document implicit = .ok result ↔
      ∃ model, Model.build document implicit = .ok model ∧
        insertNamed? Model.name model models = some result := by
  simp only [declareModel, bind_eq_ok]
  refine exists_congr fun model => and_congr_right fun _ => ?_
  cases insertNamed? Model.name model models <;> simp [pure_eq_ok]

theorem declareOwn_eq_ok {models result : List (Model α)} {document : Document.Model α}
    (declared : declareOwn models document = .ok result) :
    declareModel models document false = .ok result := by
  unfold declareOwn at declared
  split at declared
  · cases declared
  · split at declared
    · obtain ⟨_, -, rest⟩ := bind_eq_ok.mp declared
      exact rest
    · exact declared

theorem ascending_of_declareModel {models result : List (Model α)} {own : Document.Model α}
    {implicit : Bool} (ascending : Ascending Model.name models)
    (declared : declareModel models own implicit = .ok result) : Ascending Model.name result := by
  obtain ⟨_, -, inserted⟩ := declareModel_eq_ok.mp declared
  exact ascending.insertNamed? inserted

theorem ascending_of_library {library : List (Model α)} (declared : Stateful.all.foldlM
    (fun models function => declareModel models (Library.model function) true) [] = .ok library) :
    Ascending Model.name library :=
  foldlM_induction (fun _ models => Ascending Model.name models) .nil
    (fun _ _ _ _ _ _ holds stepped => ascending_of_declareModel holds stepped) declared

theorem built_of_library {library : List (Model α)} (declared : Stateful.all.foldlM
    (fun models function => declareModel models (Library.model function) true) [] = .ok library) :
    ∀ model ∈ library, ∃ function, Model.build (Library.model function) true = .ok model := by
  refine foldlM_induction (fun _ models => ∀ model ∈ models,
    ∃ function, Model.build (Library.model function) true = .ok model) (by simp) ?_ declared
  intro _ function _ models after _ before stepped
  obtain ⟨model, built, inserted⟩ := declareModel_eq_ok.mp stepped
  intro other member
  rcases (mem_insertNamed? inserted).mp member with rfl | member
  · exact ⟨function, built⟩
  · exact before other member

/-- Whether a checked model is one of the document's or of the library's. -/
def Comes (document : Document.Project α) (model : Model α) : Prop :=
  (∃ own ∈ document.models, Model.build own false = .ok model) ∨
    ∃ function, Model.build (Library.model function) true = .ok model

theorem comes_of_declareAll {document : Document.Project α} {models : List (Model α)}
    (declared : declareAll document = .ok models) : ∀ model ∈ models, Comes document model := by
  obtain ⟨library, first, second⟩ := bind_eq_ok.mp declared
  refine foldlM_induction (fun _ models => ∀ model ∈ models, Comes document model)
    (fun model member => .inr (built_of_library first model member)) ?_ second
  intro done own rest models after split before stepped
  obtain ⟨model, built, inserted⟩ := declareModel_eq_ok.mp (declareOwn_eq_ok stepped)
  intro other member
  rcases (mem_insertNamed? inserted).mp member with rfl | member
  · exact .inl ⟨own, by simp [split], built⟩
  · exact before other member

end

/-! ## Linked projects -/

/-- Whether a model is linked to models that the project finds under their names. -/
def IsLinked (project : Project α) (model : LinkedModel α) : Prop :=
  ∃ linked, LinkedModel.Links linked model.toModel model ∧
    ∀ name inner, LinkedModel.named? linked name = some inner → project.find? name = some inner

/-- Whether an absolute path is read by an input of a module, or by one of a module inside it. -/
inductive ReadsInside (project : Project α) : Module → Path → Prop
  | own {module : Module} {input : Input} {path : Path} (member : input ∈ module.inputs)
    (absolute : input.source = .absolute path) : ReadsInside project module path
  | deeper {module inner : Module} {model : LinkedModel α} {path : Path}
    (found : project.find? module.model = some model) (member : inner ∈ model.modules)
    (reads : ReadsInside project inner path) : ReadsInside project module path

/-- Whether no input of a module overrides a stock of its model. -/
def SparesStocks (project : Project α) : Prop :=
  ∀ model ∈ project.models, ∀ module ∈ model.modules, ∀ inner ∈ project.find? module.model,
    ∀ input ∈ module.inputs, ∀ v ∈ inner.find? input.target, v.isStock = false

instance {project : Project α} : Decidable project.SparesStocks :=
  inferInstanceAs (Decidable (∀ _ ∈ _, _))

/-- Whether each absolute path that is read inside a module of the main model has no empty step and
does not begin with that module. -/
def ReadsOutward (project : Project α) : Prop :=
  ∀ main, project.main? = some main → ∀ module ∈ main.modules, ∀ path,
    project.ReadsInside module path → Path.IsSolid path ∧ Path.head path ≠ module.name

/-- Whether no input of a module has a source that starts in the main model. -/
def HasRelativeSources (project : Project α) : Prop :=
  ∀ model ∈ project.models, ∀ module ∈ model.modules, ∀ input ∈ module.inputs,
    input.source.isAbsolute = false

instance {project : Project α} : Decidable project.HasRelativeSources :=
  inferInstanceAs (Decidable (∀ _ ∈ _, _))

theorem HasRelativeSources.readsOutward {project : Project α}
    (relative : project.HasRelativeSources) : project.ReadsOutward := by
  intro main isMain module member path reads
  have inputs := relative main (mem_of_findNamed isMain) module member
  clear member
  exfalso
  induction reads with
  | own given absolute =>
    have starts := inputs _ given
    rw [absolute] at starts
    cases starts
  | deeper found member _ ih => exact ih (relative _ (mem_of_findNamed found) _ member)

/-- Linking takes the models of the order one after the other, each linked to those before it. -/
theorem linkAll_eq_ok {models : List (Model α)} {order : List Name} {linked : List (LinkedModel α)}
    (done : linkAll models order = .ok linked) :
    ∀ model ∈ linked, model.toModel ∈ models ∧
      ∃ before, before ++ [model] <+: linked ∧ LinkedModel.Links before model.toModel model := by
  refine foldlM_induction (fun _ linked => ∀ model ∈ linked, model.toModel ∈ models ∧
      ∃ before, before ++ [model] <+: linked ∧ LinkedModel.Links before model.toModel model)
    (by simp) ?_ done
  intro _ name _ linked after _ before stepped
  split at stepped
  · cases stepped
  · rename_i model found
    simp only [bind_eq_ok, pure_eq_ok] at stepped
    obtain ⟨last, isLinked, rfl⟩ := stepped
    have links := LinkedModel.link_eq_ok isLinked
    intro other member
    rcases List.mem_append.mp member with earlier | here
    · obtain ⟨inside, start, within, otherLinks⟩ := before other earlier
      exact ⟨inside, start, within.trans (List.prefix_append ..), otherLinks⟩
    · obtain rfl := List.mem_singleton.mp here
      rw [links.same]
      exact ⟨mem_of_findNamed found, linked, List.prefix_rfl, links⟩

theorem findNamed_filterMap {models : List (Model α)} (find : Name → Option (LinkedModel α))
    (named : ∀ name model, find name = some model → model.name = name) {name : Name}
    (declared : ∃ model ∈ models, model.name = name) :
    findNamed (fun model : LinkedModel α => model.name) name
      (models.filterMap fun model => find model.name) = find name := by
  have own : ∀ {model : LinkedModel α}, model ∈ models.filterMap (fun model => find model.name) →
      find model.name = some model := by
    intro model member
    obtain ⟨other, -, found⟩ := List.mem_filterMap.mp member
    rwa [named _ _ found]
  cases sought : find name with
  | none =>
    refine findNamed_eq_none.mpr fun model member same => ?_
    rw [← same, own member] at sought
    cases sought
  | some model =>
    obtain ⟨other, member, rfl⟩ := declared
    have inside : model ∈ models.filterMap fun model => find model.name :=
      List.mem_filterMap.mpr ⟨other, member, sought⟩
    obtain ⟨first, found⟩ := LinkedModel.exists_named? inside (named _ _ sought)
    unfold LinkedModel.named? at found
    rw [found, ← sought, ← own (mem_of_findNamed found), name_of_findNamed found]

/-- What linking has found under a name is found among the models in the order of their declaration. -/
theorem named?_of_linkAll {models : List (Model α)} {order : List Name} {linked : List (LinkedModel α)}
    (done : linkAll models order = .ok linked) {name : Name} {inner : LinkedModel α}
    (sought : LinkedModel.named? linked name = some inner) : LinkedModel.named?
      (models.filterMap fun model => LinkedModel.named? linked model.name) name = some inner := by
  have inside := (linkAll_eq_ok done inner (mem_of_findNamed sought)).1
  refine (findNamed_filterMap (LinkedModel.named? linked)
    (fun _ _ => LinkedModel.name_of_named?) ?_).trans sought
  exact ⟨inner.toModel, inside, LinkedModel.name_of_named? sought⟩

variable [Scalar α] {document : Document.Project α} {project : Project α}

/-- The stages of compiling: the times are checked, a main model is there, and what is declared is
ordered and linked. -/
theorem compile_eq_ok (compiled : compile document = .ok project) :
    document.timeSpec.validate = .ok () ∧ (∃ own ∈ document.models, own.name = mainModel) ∧
      ∃ models order linked, declareAll document = .ok models ∧ modelOrder models = .ok order ∧
        linkAll models order = .ok linked ∧ project = ⟨document.name, document.timeSpec,
          models.filterMap fun model => LinkedModel.named? linked model.name⟩ := by
  unfold compile at compiled
  obtain ⟨⟨⟩, valid, compiled⟩ := bind_eq_ok.mp compiled
  split at compiled
  · cases compiled
  · rename_i some
    simp only [bind_eq_ok, pure_eq_ok] at compiled
    obtain ⟨models, declared, order, ordered, linked, done, rfl⟩ := compiled
    exact ⟨valid, by simpa using some, models, order, linked, declared, ordered, done, rfl⟩

/-- Each model of a compiled project is linked, and comes from the document or the library. -/
theorem isLinked_of_mem (compiled : compile document = .ok project) {model : LinkedModel α}
    (member : model ∈ project.models) : project.IsLinked model ∧ Comes document model.toModel := by
  obtain ⟨-, -, models, order, linked, declared, -, done, rfl⟩ := compile_eq_ok compiled
  obtain ⟨other, -, sought⟩ := List.mem_filterMap.mp member
  obtain ⟨inside, before, within, links⟩ := linkAll_eq_ok done model (mem_of_findNamed sought)
  refine ⟨⟨before, links, fun name inner named => named?_of_linkAll done ?_⟩,
    comes_of_declareAll declared _ inside⟩
  obtain ⟨after, rfl⟩ := within
  exact findNamed_append (findNamed_append named)

theorem isLinked_of_compile (compiled : compile document = .ok project) {name : Name}
    {model : LinkedModel α} (found : project.find? name = some model) :
    project.IsLinked model ∧ Comes document model.toModel :=
  isLinked_of_mem compiled (mem_of_findNamed found)

/-- Whether the models that a project finds tell their variables apart by name. -/
def HasDistinctNames (project : Project α) : Prop :=
  ∀ {name model}, project.find? name = some model → Distinct Variable.name model.vars

/-- Whether the models that a project finds are linked and tell their variables apart by name. -/
structure Consistent (project : Project α) : Prop where
  linked : ∀ {name model}, project.find? name = some model → project.IsLinked model
  distinct : ∀ {name model}, project.find? name = some model → Distinct Variable.name model.vars

omit [Scalar α] in
/-- What a source of a linked model leads to: a variable of the model, or behind the name of a module
one of the module's model. A stock is given at a step. -/
theorem Consistent.resolve_eq_ok (consistent : project.Consistent) {linked : List (LinkedModel α)}
    {model : LinkedModel α} (links : LinkedModel.Links linked model.toModel model)
    (within : ∀ name inner, LinkedModel.named? linked name = some inner →
      project.find? name = some inner) {moment : Moment} {owner : Name} {source : Path}
    {target : Option Node}
    (resolved : Dependencies.resolve moment (linked.map fun model => (model.name, model.outline))
      model.outline owner source = .ok target) :
    (∃ v ∈ model.vars, ¬ Path.IsDotted source ∧ v.name = source ∧
      target = if v.isStock && moment = .step then none
        else some (LinkedModel.node linked model.toModel model.absoluteSources v)) ∨
    ∃ module ∈ model.modules, ∃ rest inner leaf, Path.IsDotted source ∧
      Path.split source = (module.name, some rest) ∧ project.find? module.model = some inner ∧
      inner.find? (Path.head rest) = some leaf ∧
      target = if leaf.isStock && moment = .step then none
        else some (LinkedModel.node linked model.toModel model.absoluteSources (.module module)) := by
  rcases Dependencies.resolve_eq_ok resolved with ⟨undotted, known, sought, rfl⟩ |
    ⟨head, rest, known, name, outline, leaf, -, whole, split, sought, isModule, outlines, inside, rfl⟩
  · rw [links.find?_outline] at sought
    obtain ⟨v, declared, rfl⟩ := Option.map_eq_some_iff.mp sought
    refine .inl ⟨v, mem_of_findNamed declared, undotted, name_of_findNamed declared, ?_⟩
    rw [Dependencies.isGiven, LinkedModel.isStock_node]
  · rw [links.find?_outline] at sought
    obtain ⟨v, declared, rfl⟩ := Option.map_eq_some_iff.mp sought
    rw [LinkedModel.model?_node] at isModule
    obtain ⟨module, instantiates, rfl⟩ := Option.map_eq_some_iff.mp isModule
    cases v with
    | stock | formula => cases instantiates
    | module own =>
      obtain rfl : own = module := Option.some.inj instantiates
      rw [Keyed.get?_of_items] at outlines
      obtain ⟨inner, foundLinked, rfl⟩ := Option.map_eq_some_iff.mp outlines
      have foundInner := within _ _ foundLinked
      obtain ⟨further, innerLinks, -⟩ := consistent.linked foundInner
      rw [innerLinks.find?_outline] at inside
      obtain ⟨leaf, known, rfl⟩ := Option.map_eq_some_iff.mp inside
      obtain rfl : (Variable.module own).name = head := name_of_findNamed declared
      refine .inr ⟨own, Model.mem_modules.mpr (mem_of_findNamed declared), rest, inner, leaf,
        by simp [Path.IsDotted, whole], split, foundInner, known, ?_⟩
      rw [Dependencies.isGiven, LinkedModel.isStock_node]

omit [Scalar α] in
/-- Every absolute path that is read inside a module was read for it. -/
theorem ReadsInside.mem (consistent : project.Consistent) {module : Module} {path : Path}
    (reads : project.ReadsInside module path) {linked : List (LinkedModel α)}
    (within : ∀ name inner, LinkedModel.named? linked name = some inner →
      project.find? name = some inner) {entry : Name × NameSet}
    (read : LinkedModel.readAbsolute linked module = .ok entry) : path ∈ entry.2 := by
  induction reads generalizing linked entry with
  | own member absolute =>
    obtain ⟨_, -, -, -, all⟩ := LinkedModel.readAbsolute_eq_ok read
    exact (all _).mpr (.inr ⟨_, member, absolute⟩)
  | deeper found member _ ih =>
    obtain ⟨inner, named, -, -, all⟩ := LinkedModel.readAbsolute_eq_ok read
    cases (within _ _ named).symm.trans found
    obtain ⟨further, links, among⟩ := consistent.linked found
    obtain ⟨below, inside, readBelow⟩ := exists_right_of_mem links.read member
    exact (all _).mpr (.inl (List.mem_flatMap.mpr ⟨below, inside, ih among readBelow⟩))

omit [Scalar α] in
/-- It is enough to look at the absolute paths that were read for the modules of the main model. -/
theorem readsOutward_of_absoluteSources (consistent : project.Consistent)
    (outside : ∀ main ∈ project.main?, ∀ entry ∈ main.absoluteSources, ∀ path ∈ entry.2,
      Path.IsSolid path ∧ Path.head path ≠ entry.1) : project.ReadsOutward := by
  intro main isMain module member path reads
  obtain ⟨linked, links, within⟩ := consistent.linked isMain
  obtain ⟨entry, inside, read⟩ := exists_right_of_mem links.read member
  obtain ⟨-, -, -, named, -⟩ := LinkedModel.readAbsolute_eq_ok read
  exact named ▸ outside main isMain entry inside path (reads.mem consistent within read)

end Project

/-! ## Plain names -/

variable [Scalar α]

theorem Library.names_model (function : Stateful) :
    (Library.model function : Document.Model α).definitions.map Document.Variable.name =
      "input" :: "delay_time" :: "initial_value" :: match function with
        | .smooth1 => ["output", "flow"]
        | .smooth3 => ["stock_1", "stock_2", "output", "flow_1", "flow_2", "flow_3"]
        | .delay1 => ["contents", "output"]
        | .delay3 => ["stock_1", "stock_2", "stock_3", "flow_1", "flow_2", "output"]
        | .trend => ["average", "change_in_average", "output"] := by
  cases function <;> rfl

/-- The names in library models. -/
def Library.words : List Name :=
  ["input", "delay_time", "initial_value", "output", "flow", "stock_1", "stock_2", "stock_3", "flow_1",
    "flow_2", "flow_3", "contents", "average", "change_in_average", "safediv"]

theorem Library.canonical_word {word : Name} (among : word ∈ words) : Name.canonical word = word := by
  revert word
  decide

/-- The variables of library models are named by words other than that of the function they call. -/
theorem Library.name_mem_words {function : Stateful} {definition : Document.Variable α}
    (member : definition ∈ (model function).definitions) :
    definition.name ∈ words ∧ definition.name ≠ "safediv" := by
  have named : definition.name ∈ (model function : Document.Model α).definitions.map
      Document.Variable.name := List.mem_map_of_mem member
  rw [names_model] at named
  generalize definition.name = name at named ⊢
  revert name
  cases function <;> decide

theorem Library.isPlain_model (function : Stateful) :
    ∀ definition ∈ (Library.model function : Document.Model α).definitions,
      (Name.canonical definition.name).IsPlain := by
  intro definition member
  obtain ⟨listed, apart⟩ := name_mem_words member
  rw [canonical_word listed]
  generalize definition.name = name at listed apart
  revert name
  decide

/-- Whether all variables of a project document have plain names. -/
def Document.Project.HasPlainNames (document : Document.Project α) : Prop :=
  ∀ model ∈ document.models, ∀ definition ∈ model.definitions,
    (Name.canonical definition.name).IsPlain

omit [Scalar α] in
instance {document : Document.Project α} : Decidable document.HasPlainNames :=
  inferInstanceAs (Decidable (∀ _ ∈ _, _))

namespace Project

/-- Whether all variables of the models that a project finds have plain names. -/
def HasPlainNames (project : Project α) : Prop :=
  ∀ {name model}, project.find? name = some model → ∀ v ∈ model.vars, v.name.IsPlain

variable {document : Document.Project α} {project : Project α} {model : Model α}

theorem Comes.ascending (comes : Comes document model) : Ascending Variable.name model.vars := by
  rcases comes with ⟨own, -, built⟩ | ⟨function, built⟩
  · exact Model.ascending_of_build built
  · exact Model.ascending_of_build built

theorem Comes.isPlain (comes : Comes document model) (plain : document.HasPlainNames) :
    ∀ v ∈ model.vars, v.name.IsPlain := by
  rcases comes with ⟨own, member, built⟩ | ⟨function, built⟩
  · exact Model.isPlain_of_build built (plain own member)
  · exact Model.isPlain_of_build built (Library.isPlain_model function)

theorem consistent_of_compile (compiled : compile document = .ok project) : project.Consistent where
  linked found := (isLinked_of_compile compiled found).1
  distinct found := (isLinked_of_compile compiled found).2.ascending.distinct

theorem hasPlainNames_of_compile (compiled : compile document = .ok project)
    (plain : document.HasPlainNames) : project.HasPlainNames :=
  fun found => (isLinked_of_compile compiled found).2.isPlain plain

end Project
end StockFlow
