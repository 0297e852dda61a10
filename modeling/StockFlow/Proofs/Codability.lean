import StockFlow.Proofs.Relinking
import StockFlow.Proofs.Replanning

/-!
# Which projects have plans

A project can be run exactly if its times can, its instances can be laid out, and code can be made of the
model of each of them with the inputs that it has there. Under new names that is so exactly if it is
under the old ones.
-/

namespace StockFlow

variable {α : Type}

open Name (Derives Renames relabel)

/-! ## Layouts -/

namespace Layout

/-- Whether code can be made of all variables of an instance, connected or not, and of those below. -/
inductive IsCodable (project : Project α) : Layout → Prop
  | intro {node : Layout} {model : LinkedModel α} (found : project.find? node.model = some model)
    (own : ∀ v ∈ model.vars, v.IsCodable (node.note.get? v.name).isSome)
    (below : ∀ child ∈ node.children, IsCodable project child) : IsCodable project node

theorem exists_placeAll {place : Module → Nat → Except Fault Layout} {modules : List Module}
    (each : ∀ module ∈ modules, ∀ shift, ∃ node, place module shift = .ok node) (shift : Nat) :
    ∃ children, placeAll place modules shift = .ok children := by
  induction modules generalizing shift with
  | nil => exact ⟨[], rfl⟩
  | cons module rest ih =>
    obtain ⟨here, others⟩ := List.forall_mem_cons.mp each
    obtain ⟨first, placed⟩ := here shift
    obtain ⟨children, after⟩ := ih others (shift + first.size)
    exact ⟨first :: children, bind_eq_ok.mpr ⟨first, placed, bind_eq_ok.mpr ⟨children, after, rfl⟩⟩⟩

/-- Models that instantiate nothing can be placed below another one. -/
theorem exists_ofProject {project : Project α} {main : LinkedModel α} (nonempty : project.models ≠ [])
    (shallow : ∀ module ∈ main.modules, ∃ inner, project.find? module.model = some inner ∧
      inner.modules = []) : ∃ layout, ofProject project main = .ok layout := by
  obtain ⟨depth, enough⟩ : ∃ depth, project.models.length = depth + 1 :=
    Nat.exists_eq_add_one_of_ne_zero (mt List.length_eq_zero_iff.mp nonempty)
  unfold ofProject place
  rw [enough]
  refine exists_bind_eq_ok.mpr ((exists_placeAll (fun module member shift => ?_) _).imp fun children placed =>
    ⟨placed, _, rfl⟩)
  obtain ⟨inner, found, plain⟩ := shallow module member
  rw [found]
  dsimp only
  unfold place
  rw [plain]
  exact ⟨_, rfl⟩

end Layout

/-! ## Plans -/

section

variable [Scalar α] {project : Project α}

open Layout (IsCodable)

/-- Code can be made of a placed instance exactly if it can be made of its variables and of those below. -/
theorem Layout.Placed.exists_ofWired_iff (consistent : project.Consistent) {node : Layout}
    (placed : Layout.Placed project node) (root above : Layout) (clock : Clock α) :
    (∃ coded, Coded.ofWired project clock (Layout.wiredBelow root above node) = .ok coded) ↔
      IsCodable project node := by
  induction placed generalizing above with
  | @intro node model first found slots tidy modules below ih =>
    obtain ⟨linked, links, -⟩ := consistent.linked found
    have children : (∃ coded, Coded.allOfWired project clock
        (Layout.allWiredBelow root node node.children) = .ok coded) ↔
          ∀ child ∈ node.children, IsCodable project child := by
      rw [Coded.allOfWired_eq_mapM, Layout.allWiredBelow_eq_map]
      constructor
      · rintro ⟨coded, done⟩ child member
        obtain ⟨one, -, made⟩ := exists_right_of_mem (mapM_eq_ok.mp done) (List.mem_map_of_mem member)
        exact (ih child member node).mp ⟨one, made⟩
      · intro each
        refine exists_mapM (List.forall_mem_map.mpr fun child member => ?_)
        exact (ih child member node).mpr (each child member)
    have own : (∃ code, Site.code ⟨⟨node.name, node.model, node.shift, node.size, node.slots,
          Layout.wire root above node.note, Layout.allWiredBelow root node node.children⟩, model, clock⟩ =
            .ok code) ↔ ∀ v ∈ model.vars, v.IsCodable (node.note.get? v.name).isSome := by
      rw [Site.exists_code_iff links (consistent.distinct found) slots]
      simp only [Site.inputs, Layout.isSome_get?_wire]
    rw [Layout.wiredBelow_eq, Coded.ofWired, exists_bind_eq_ok, found]
    simp only [exists_bind_eq_ok]
    constructor
    · rintro ⟨coded, done, code, made, -⟩
      exact .intro found (own.mp ⟨code, made⟩) (children.mp ⟨coded, done⟩)
    · rintro ⟨found', codable, each⟩
      obtain rfl := Option.some.inj (found.symm.trans found')
      obtain ⟨coded, done⟩ := children.mpr each
      obtain ⟨code, made⟩ := own.mpr codable
      exact ⟨coded, done, code, made, _, rfl⟩

theorem Plan.exists_ofProject_iff (consistent : project.Consistent) {main : LinkedModel α}
    (isMain : project.main? = some main) : (∃ plan, Plan.ofProject project = .ok plan) ↔
      (∃ u, project.runSpec.validate = .ok u) ∧
        ∃ layout, Layout.ofProject project main = .ok layout ∧ IsCodable project layout := by
  have codable : ∀ layout, Layout.ofProject project main = .ok layout →
      ((∃ root, Coded.ofWired project (Clock.ofSpec project.runSpec) layout.wired = .ok root) ↔
        IsCodable project layout) := fun layout placed =>
    (Plan.placed_of_layout consistent.distinct isMain placed).1.exists_ofWired_iff consistent _ _ _
  unfold Plan.ofProject
  rw [isMain]
  simp only [exists_bind_eq_ok]
  constructor
  · rintro ⟨u, valid, layout, placed, root, made, -⟩
    exact ⟨⟨u, valid⟩, layout, placed, (codable layout placed).mp ⟨root, made⟩⟩
  · rintro ⟨⟨u, valid⟩, layout, placed, each⟩
    obtain ⟨root, made⟩ := (codable layout placed).mpr each
    exact ⟨u, valid, layout, placed, root, made, _, rfl⟩

omit [Scalar α] in
/-- Where the main model's modules instantiate nothing, the main model and theirs decide. -/
theorem Layout.isCodable_iff (consistent : project.Consistent) {main : LinkedModel α}
    (isMain : project.main? = some main) (shallow : ∀ module ∈ main.modules, ∃ inner,
      project.find? module.model = some inner ∧ inner.modules = [])
    {layout : Layout} (placed : Layout.ofProject project main = .ok layout) :
    IsCodable project layout ↔ (∀ v ∈ main.vars, v.IsCodable false) ∧
      ∀ module ∈ main.modules, ∀ inner, project.find? module.model = some inner →
        ∀ v ∈ inner.vars, v.IsCodable ((Model.wires module).get? v.name).isSome := by
  have found : project.find? mainModel = some main := isMain
  obtain ⟨placed, named, -, note⟩ := Plan.placed_of_layout consistent.distinct isMain placed
  obtain ⟨found', slots, tidy, modules, below⟩ := placed
  rename_i model first
  rw [named] at found'
  obtain rfl := Option.some.inj (found.symm.trans found')
  have inner : ∀ module (child : Layout), child ∈ layout.children → child.model = module.model →
      child.note = Model.wires module → module ∈ main.modules → (IsCodable project child ↔
        ∀ inner, project.find? module.model = some inner →
          ∀ v ∈ inner.vars, v.IsCodable ((Model.wires module).get? v.name).isSome) := by
    intro module child member ofModel wires listed
    constructor
    · rintro ⟨known, codable, -⟩ inner found
      rw [ofModel, found] at known
      obtain rfl := Option.some.inj known
      exact wires ▸ codable
    · intro codable
      obtain ⟨inner, known, plain⟩ := shallow module listed
      -- a child of the root has no children, because its model has no modules
      refine .intro (ofModel ▸ known) (wires ▸ codable inner known) fun grandchild among => ?_
      obtain ⟨known', -, -, modules, -⟩ := below child member
      rw [ofModel, known] at known'
      obtain rfl := Option.some.inj known'
      rw [plain, List.forall₂_nil_left_iff] at modules
      rw [modules] at among
      cases among
  constructor
  · rintro ⟨known, codable, each⟩
    rw [named, found] at known
    obtain rfl := Option.some.inj known
    refine ⟨by simpa [note, Keyed.get?] using codable, fun module listed => ?_⟩
    obtain ⟨child, member, -, ofModel, wires⟩ := exists_right_of_mem modules listed
    exact (inner module child member ofModel wires listed).mp (each child member)
  · rintro ⟨codable, each⟩
    refine .intro (named ▸ found) (by simpa [note, Keyed.get?] using codable) fun child member => ?_
    obtain ⟨module, listed, -, ofModel, wires⟩ := exists_left_of_mem modules member
    exact (inner module child member ofModel wires listed).mpr (each module listed)

omit [Scalar α] in
theorem Layout.exists_isCodable_iff (consistent : project.Consistent) {main : LinkedModel α}
    (isMain : project.main? = some main) (shallow : ∀ module ∈ main.modules, ∃ inner,
      project.find? module.model = some inner ∧ inner.modules = []) :
    (∃ layout, Layout.ofProject project main = .ok layout ∧ IsCodable project layout) ↔
      (∀ v ∈ main.vars, v.IsCodable false) ∧
        ∀ module ∈ main.modules, ∀ inner, project.find? module.model = some inner →
          ∀ v ∈ inner.vars, v.IsCodable ((Model.wires module).get? v.name).isSome := by
  have nonempty : project.models ≠ [] := List.ne_nil_of_mem (mem_of_findNamed isMain)
  obtain ⟨layout, placed⟩ := Layout.exists_ofProject nonempty shallow
  rw [← Layout.isCodable_iff consistent isMain shallow placed, placed]
  simp only [Except.ok.injEq, exists_eq_left']

end

/-! ## New names -/

section

variable {f : Name → Name} {known : Name → Prop}

theorem Equation.Reduces.isAdmissible_iff (renames : Renames f known) {equation other : Equation α}
    (reduces : equation.Reduces f known other) : other.IsAdmissible ↔ equation.IsAdmissible := by
  rw [reduces.eq_mapNames renames, IsAdmissible, IsAdmissible, calls_mapNames, List.forall_mem_map]
  refine forall₂_congr fun call member => ?_
  have reserved : isReserved call.1 = true := Bool.or_eq_true_iff.mpr (.inl (reduces.primitive call member))
  rw [renames.relabel_reserved reserved, mapNamesAll_eq_map, isAdmissible_map]

theorem Variable.Reduces.isCodable_iff (renames : Renames f known) {v w : Variable α}
    (reduces : v.Reduces f known w) : w.IsCodable false ↔ v.IsCodable false := by
  unfold IsCodable
  rw [if_neg Bool.false_ne_true, if_neg Bool.false_ne_true, reduces.relabels.equation?_eq]
  cases own : v.equation? with
  | none => simp
  | some equation =>
    have reduced : equation.Reduces f known (equation.mapReferences (relabel f)) :=
      ⟨⟨rfl, reduces.derives.equation equation own⟩, reduces.primitive equation own⟩
    simp only [Option.map_some, Option.some.injEq, forall_eq']
    exact reduced.isAdmissible_iff renames

/-- What the inputs of a module are wired to is under new names the same, but for the names. -/
theorem Module.Recasts.wires {module next : Module} (recasts : module.Recasts f known next) :
    Keyed.Rel (fun symbol symbol' => Derives known symbol ∧ symbol' = relabel f symbol)
      (Model.wires module) (Model.wires next) := by
  obtain ⟨_, -, derives⟩ := recasts.isCall.function
  have each := (List.forall₂_and_left _ _).mpr
    ⟨fun input member => (derives input member).2, recasts.inputs⟩
  apply Keyed.rel_ofList
  unfold Keyed.Rel
  rw [List.forall₂_map_left_iff, List.forall₂_map_right_iff]
  refine each.imp fun input other both => ⟨both.2.target, ?_⟩
  obtain ⟨path, given, renamed⟩ := both.2.source
  have derived := both.1
  rw [given] at derived ⊢
  rw [renamed]
  exact ⟨derived, rfl⟩

theorem Module.Recasts.isSome_wires {module next : Module} (recasts : module.Recasts f known next)
    (name : Name) : ((Model.wires next).get? name).isSome = ((Model.wires module).get? name).isSome := by
  have both := recasts.wires.get? name
  generalize (Model.wires module).get? name = wire, (Model.wires next).get? name = wire' at both
  cases both <;> rfl

end

namespace Project.Corresponds

variable [Scalar α] {f : Name → Name} {known : Name → Prop} {project other : Project α}
  (corresponds : project.Corresponds f known other)
include corresponds

theorem rel_find? (name : Name) : Option.Rel (fun model other : LinkedModel α =>
    model.toModel.Corresponds f known other.toModel) (project.find? name) (other.find? name) :=
  rel_findNamed (fun _ _ one => one.name_eq) corresponds.models name

theorem recasts {main main' : LinkedModel α} (isMain : project.main? = some main)
    (isMain' : other.main? = some main') : main.toModel.Recasts f known main'.toModel := by
  have both := corresponds.rel_find? mainModel
  unfold Project.main? at isMain isMain'
  rw [isMain, isMain'] at both
  cases both with
  | some both => exact both.recasts (LinkedModel.name_of_named? isMain)

/-- The model of a module that was made for a call is the library's, in both projects. -/
theorem exists_inner (consistent : project.Consistent)
    {main : LinkedModel α} (isMain : project.main? = some main) {module next : Module}
    (member : module ∈ main.modules) (recasts : module.Recasts f known next) :
    ∃ inner inner' function, project.find? module.model = some inner ∧
      other.find? next.model = some inner' ∧ inner'.toModel = inner.toModel ∧
        Model.build (Library.model function) true = .ok inner.toModel := by
  obtain ⟨linked, links, within⟩ := consistent.linked isMain
  obtain ⟨entry, -, read⟩ := exists_right_of_mem links.read member
  obtain ⟨inner, named, -⟩ := LinkedModel.readAbsolute_eq_ok read
  have found := within _ _ named
  have both := corresponds.rel_find? module.model
  rw [found] at both
  generalize found' : other.find? module.model = result at both
  cases both with
  | some both =>
  obtain ⟨function, isModel, -⟩ := recasts.isCall.function
  have apart : inner.name ≠ mainModel := by
    rw [LinkedModel.name_of_named? found, isModel]
    exact Stateful.modelName_ne_main function
  obtain ⟨same, function, built⟩ := both.eq_of_ne apart
  exact ⟨inner, _, function, found, recasts.model ▸ found', same, built⟩

theorem runSpec_eq : other.runSpec = project.runSpec := by
  unfold Project.runSpec
  rw [corresponds.timeSpec]
  have both := corresponds.rel_find? mainModel
  unfold Project.main?
  generalize isMain : project.find? mainModel = main, other.find? mainModel = main' at both
  cases both with
  | none => rfl
  | some both =>
    have recasts := both.recasts (LinkedModel.name_of_named? isMain)
    simp only [Option.bind_some, recasts.timeSpec?]

variable (renames : Renames f known) (consistent : project.Consistent) (consistent' : other.Consistent)
include renames consistent consistent'

/-- There is a plan under new names exactly if there is one under the old ones. -/
theorem agree_ofProject : Agree (fun _ _ => True) (Plan.ofProject project) (Plan.ofProject other) := by
  have both := corresponds.rel_find? mainModel
  generalize isMain : project.find? mainModel = main, isMain' : other.find? mainModel = main' at both
  cases both with
  | none =>
    unfold Plan.ofProject Project.main?
    rw [isMain, isMain']
    exact .error
  | @some main main' both =>
    have recasts := both.recasts (LinkedModel.name_of_named? isMain)
    have inner : ∀ module ∈ main.modules, ∀ next, module.Recasts f known next →
        ∃ inner inner', project.find? module.model = some inner ∧ other.find? next.model = some inner' ∧
          inner'.toModel = inner.toModel ∧ inner.modules = [] := by
      intro module member next one
      obtain ⟨inner, inner', function, found, found', same, built⟩ :=
        corresponds.exists_inner consistent isMain member one
      exact ⟨inner, inner', found, found', same, Model.modules_of_build built (Library.isBasic_model function)⟩
    have shallow : ∀ module ∈ main.modules, ∃ inner, project.find? module.model = some inner ∧
        inner.modules = [] := by
      intro module member
      obtain ⟨next, -, one⟩ := recasts.modules.exists_right member
      obtain ⟨inner, -, found, -, -, plain⟩ := inner module member next one
      exact ⟨inner, found, plain⟩
    have shallow' : ∀ next ∈ main'.modules, ∃ inner, other.find? next.model = some inner ∧
        inner.modules = [] := by
      intro next member
      obtain ⟨module, inside, one⟩ := recasts.modules.exists_left member
      obtain ⟨inner, inner', -, found', same, plain⟩ := inner module inside next one
      exact ⟨inner', found', same ▸ plain⟩
    refine .of_exists_iff ?_ fun _ _ _ _ => trivial
    rw [Plan.exists_ofProject_iff consistent isMain, Plan.exists_ofProject_iff consistent' isMain',
      corresponds.runSpec_eq, Layout.exists_isCodable_iff consistent isMain shallow,
      Layout.exists_isCodable_iff consistent' isMain' shallow']
    refine and_congr_right fun _ => and_congr ?_ ?_
    · exact recasts.vars.forall_iff fun v _ w reduces => (reduces.isCodable_iff renames).symm
    · refine recasts.modules.forall_iff fun module member next one => ?_
      obtain ⟨inner, inner', found, found', same, -⟩ := inner module member next one
      simp only [found, found', Option.some.injEq, forall_eq', same, one.isSome_wires]

end Project.Corresponds

end StockFlow
