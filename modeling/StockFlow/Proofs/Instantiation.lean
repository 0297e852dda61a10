import StockFlow.Proofs.Catalog
import StockFlow.Proofs.Nesting

/-!
# Instantiation

Models are listed after all that they instantiate, each of them once. There is such a list exactly if every
model that is instantiated is there and no model instantiates itself, directly or through others; the bound
on the depth of the search for it does not matter. So a model is linked after those that it instantiates, of
which all absolute paths are known by then, and the instances below the main model form a tree that is no
deeper than there are models.
-/

namespace StockFlow

open Relation (TransGen)

variable {α : Type}

namespace Project

variable {models : List (Model α)}

/-- Whether a model has a module of a model. -/
def Instantiates (models : List (Model α)) (name other : Name) : Prop :=
  ∃ model ∈ models, model.name = name ∧ ∃ module ∈ model.modules, module.model = other

theorem mem_instantiated {model : Model α} {other : Name} :
    other ∈ model.instantiated ↔ ∃ module ∈ model.modules, module.model = other := by
  rw [Model.instantiated, NameSet.mem_ofList, List.mem_map]

theorem Instantiates.mem {name other : Name} (instantiates : Instantiates models name other) :
    name ∈ models.map Model.name := by
  obtain ⟨model, member, rfl, -⟩ := instantiates
  exact List.mem_map_of_mem member

/-- Whether names are those of models, each after all that its model instantiates. -/
structure Ordered (models : List (Model α)) (order : List Name) : Prop where
  known : order ⊆ models.map Model.name
  below : ∀ before name after, order = before ++ name :: after →
    ∀ other, Instantiates models name other → other ∈ before

theorem Ordered.nil : Ordered models [] where
  known := List.nil_subset _
  below before name after split := by simp at split

theorem Ordered.concat {order : List Name} {name : Name} (ordered : Ordered models order)
    (known : name ∈ models.map Model.name)
    (below : ∀ other, Instantiates models name other → other ∈ order) : Ordered models (order ++ [name]) where
  known := List.append_subset.mpr ⟨ordered.known, List.cons_subset.mpr ⟨known, List.nil_subset _⟩⟩
  below before last after split := by
    rcases List.eq_nil_or_concat after with rfl | ⟨init, final, rfl⟩
    · obtain ⟨rfl, same⟩ := List.append_inj' split rfl
      obtain rfl := List.singleton_inj.mp same
      exact below
    · rw [List.concat_eq_append, ← List.cons_append, ← List.append_assoc] at split
      exact ordered.below before last init (List.append_inj' split rfl).1

/-- In an order without repetitions, what a model instantiates has a lower position. -/
theorem Ordered.idxOf_lt {order : List Name} (ordered : Ordered models order) (distinct : order.Nodup)
    {name other : Name} (listed : name ∈ order) (instantiates : Instantiates models name other) :
    other ∈ order ∧ order.idxOf other < order.idxOf name := by
  obtain ⟨before, after, rfl⟩ := List.append_of_mem listed
  have earlier := ordered.below before name after rfl other instantiates
  have apart : name ∉ before := fun member => (List.disjoint_of_nodup_append distinct) member List.mem_cons_self
  refine ⟨List.mem_append_left _ earlier, ?_⟩
  rw [List.idxOf_append_of_mem earlier, List.idxOf_append_of_notMem apart]
  exact (List.idxOf_lt_length_of_mem earlier).trans_le (Nat.le_add_right ..)

/-! ## A list that was found -/

section

variable (distinct : Distinct Model.name models)
include distinct

/-- A search that succeeds adds a model below what was listed, after all that it instantiates. -/
theorem ordered_of_visitModel {depth : Nat} {path done after : List Name} {name : Name}
    (visited : visitModel models depth path done name = .ok after) (ordered : Ordered models done) :
    Ordered models after ∧ done ⊆ after ∧ name ∈ after := by
  induction depth generalizing path done after name with
  | zero => cases visited
  | succ depth ih =>
    rcases visitModel_eq_ok visited with ⟨listed, rfl⟩ | ⟨model, next, -, -, found, folded, rfl⟩
    · exact ⟨ordered, List.Subset.refl _, listed⟩
    · obtain ⟨ordered, grows, listed⟩ := foldlM_induction
        (fun taken next => Ordered models next ∧ done ⊆ next ∧ taken ⊆ next)
        ⟨ordered, List.Subset.refl _, List.nil_subset _⟩
        (fun taken other _ before after _ holds stepped => by
          obtain ⟨ordered, grows, listed⟩ := ih stepped holds.1
          exact ⟨ordered, List.Subset.trans holds.2.1 grows, List.append_subset.mpr
            ⟨List.Subset.trans holds.2.2 grows, List.cons_subset.mpr ⟨listed, List.nil_subset _⟩⟩⟩) folded
      have known : name ∈ models.map Model.name :=
        List.mem_map.mpr ⟨model, mem_of_findNamed found, name_of_findNamed found⟩
      refine ⟨ordered.concat known fun other instantiates => listed ?_,
        List.Subset.trans grows (List.subset_append_left ..), by simp⟩
      obtain ⟨own, member, same, below⟩ := instantiates
      obtain rfl := distinct.eq_of_name_eq member (mem_of_findNamed found)
        (same.trans (name_of_findNamed found).symm)
      exact mem_instantiated.mpr below

theorem ordered_of_modelOrder {order : List Name} (found : modelOrder models = .ok order) :
    Ordered models order ∧ models.map Model.name ⊆ order := by
  refine foldlM_induction (fun taken order => Ordered models order ∧ taken ⊆ order)
    ⟨.nil, List.nil_subset _⟩ ?_ found
  intro taken name _ before after _ holds stepped
  obtain ⟨ordered, grows, listed⟩ := ordered_of_visitModel distinct stepped holds.1
  exact ⟨ordered, List.append_subset.mpr
    ⟨List.Subset.trans holds.2 grows, List.cons_subset.mpr ⟨listed, List.nil_subset _⟩⟩⟩

theorem perm_of_modelOrder {order : List Name} (found : modelOrder models = .ok order) :
    order.Perm (models.map Model.name) := by
  obtain ⟨ordered, all⟩ := ordered_of_modelOrder distinct found
  exact (List.perm_ext_iff_of_nodup (nodup_of_modelOrder found) distinct).mpr
    fun name => ⟨fun listed => ordered.known listed, fun member => all member⟩

/-- Where there is an order, positions fall along instantiation, so nothing instantiates itself. -/
theorem acyclic_of_modelOrder {order : List Name} (found : modelOrder models = .ok order) (name : Name) :
    ¬ TransGen (Instantiates models) name name := by
  obtain ⟨ordered, all⟩ := ordered_of_modelOrder distinct found
  have once := nodup_of_modelOrder found
  intro cycle
  have descends : ∀ other, TransGen (Instantiates models) name other →
      other ∈ order ∧ order.idxOf other < order.idxOf name := by
    intro other reached
    induction reached with
    | single first => exact ordered.idxOf_lt once (all first.mem) first
    | tail _ last ih =>
      obtain ⟨listed, lower⟩ := ordered.idxOf_lt once ih.1 last
      exact ⟨listed, lower.trans ih.2⟩
  exact Nat.lt_irrefl _ (descends name cycle).2

end

/-! ## A list to be found -/

theorem length_le_of_path {path : List Name} (inside : path ⊆ models.map Model.name) (apart : path.Nodup) :
    path.length ≤ models.length := by
  simpa using apart.length_le_of_subset inside

/-- The models on the way differ, so a bound on the depth that leaves room for all of them does not matter. -/
theorem visitModel_succ {depth : Nat} {path done : List Name} {name : Name}
    (inside : path ⊆ models.map Model.name) (apart : path.Nodup)
    (enough : models.length < depth + path.length) :
    visitModel models (depth + 1) path done name = visitModel models depth path done name := by
  induction depth generalizing path done name with
  | zero =>
    have fits := length_le_of_path inside apart
    omega
  | succ depth ih =>
    rw [visitModel, visitModel]
    split
    · rfl
    · split
      · rfl
      · rename_i fresh
        split
        · rfl
        · rename_i model found
          have known : name ∈ models.map Model.name :=
            List.mem_map.mpr ⟨model, mem_of_findNamed found, name_of_findNamed found⟩
          have same : visitModel models (depth + 1) (name :: path) = visitModel models depth (name :: path) := by
            funext done other
            exact ih (List.cons_subset.mpr ⟨known, inside⟩) (List.nodup_cons.mpr ⟨fresh, apart⟩)
              (by rw [List.length_cons]; omega)
          rw [same]

/-- The search for an order ends without a bound on its depth: it is the same under every large one. -/
theorem modelOrder_eq {depth : Nat} (enough : models.length < depth) :
    (models.map Model.name).foldlM (visitModel models depth []) [] = modelOrder models := by
  induction depth, enough using Nat.le_induction with
  | base => rfl
  | succ depth enough ih =>
    rw [← ih]
    congr 1
    funext done name
    exact visitModel_succ (List.nil_subset _) List.nodup_nil enough

section

variable (closed : ∀ name other, Instantiates models name other → other ∈ models.map Model.name)
  (acyclic : ∀ name, ¬ TransGen (Instantiates models) name name)
include closed acyclic

/-- Where all models are there and none instantiates itself, a search succeeds below those that wait. -/
theorem exists_visitModel {depth : Nat} {path done : List Name} {name : Name}
    (known : name ∈ models.map Model.name) (inside : path ⊆ models.map Model.name) (apart : path.Nodup)
    (above : ∀ p ∈ path, TransGen (Instantiates models) p name)
    (enough : models.length < depth + path.length) :
    ∃ after, visitModel models depth path done name = .ok after := by
  induction depth generalizing path done name with
  | zero =>
    have fits := length_le_of_path inside apart
    omega
  | succ depth ih =>
    have fresh : name ∉ path := fun listed => acyclic name (above name listed)
    unfold visitModel
    split
    · exact ⟨_, rfl⟩
    · obtain ⟨declared, member, named⟩ := List.mem_map.mp known
      obtain ⟨model, found⟩ := exists_findNamed member named
      rw [found]
      refine exists_bind_eq_ok.mpr ((exists_foldlM (fun done other below => ?_) done).imp
        fun _ folded => ⟨folded, exists_pure_eq_ok⟩)
      have instantiates : Instantiates models name other :=
        ⟨model, mem_of_findNamed found, name_of_findNamed found, mem_instantiated.mp below⟩
      exact ih (closed name other instantiates) (List.cons_subset.mpr ⟨known, inside⟩)
        (List.nodup_cons.mpr ⟨fresh, apart⟩)
        (List.forall_mem_cons.mpr ⟨.single instantiates, fun p onPath => (above p onPath).tail instantiates⟩)
        (by rw [List.length_cons]; omega)

theorem exists_modelOrder : ∃ order, modelOrder models = .ok order :=
  exists_foldlM (fun _ _ known => exists_visitModel closed acyclic known (List.nil_subset _)
    List.nodup_nil (by simp) (Nat.lt_succ_self _)) []

end

/-- Models can be ordered exactly if all that are instantiated are there and none instantiates itself. -/
theorem exists_modelOrder_iff (distinct : Distinct Model.name models) :
    (∃ order, modelOrder models = .ok order) ↔
      (∀ name other, Instantiates models name other → other ∈ models.map Model.name) ∧
        ∀ name, ¬ TransGen (Instantiates models) name name := by
  constructor
  · rintro ⟨order, found⟩
    obtain ⟨ordered, all⟩ := ordered_of_modelOrder distinct found
    refine ⟨fun name other instantiates => ordered.known ?_, acyclic_of_modelOrder distinct found⟩
    exact (ordered.idxOf_lt (nodup_of_modelOrder found) (all instantiates.mem) instantiates).1
  · rintro ⟨closed, acyclic⟩
    exact exists_modelOrder closed acyclic

/-! ## Linked models -/

/-- Each model was linked to those that were linked before it. -/
theorem link_of_linkAll {order : List Name} {linked : List (LinkedModel α)}
    (done : linkAll models order = .ok linked) : ∀ before model after, linked = before ++ model :: after →
      LinkedModel.link before model.toModel = .ok model := by
  refine foldlM_induction (fun _ linked => ∀ before model after, linked = before ++ model :: after →
    LinkedModel.link before model.toModel = .ok model) (fun before model after split => by simp at split) ?_ done
  intro _ name _ linked next _ holds stepped before model after split
  split at stepped
  · cases stepped
  · rename_i own found
    obtain ⟨last, isLinked, stepped⟩ := bind_eq_ok.mp stepped
    obtain rfl := pure_eq_ok.mp stepped
    rcases List.eq_nil_or_concat after with rfl | ⟨init, final, rfl⟩
    · obtain ⟨rfl, same⟩ := List.append_inj' split rfl
      obtain rfl := List.singleton_inj.mp same
      rwa [(LinkedModel.link_eq_ok isLinked).same]
    · rw [List.concat_eq_append, ← List.cons_append, ← List.append_assoc] at split
      exact holds before model init (List.append_inj' split rfl).1

theorem perm_of_linkAll {order : List Name} {linked : List (LinkedModel α)}
    (distinct : Distinct Model.name models) (ordered : modelOrder models = .ok order)
    (done : linkAll models order = .ok linked) :
    linked.Perm (models.filterMap fun model => LinkedModel.named? linked model.name) := by
  have apart : Distinct (fun model : LinkedModel α => model.name) linked := nodup_of_linkAll ordered done
  have names : (models.filterMap fun model => LinkedModel.named? linked model.name).map
      (fun model => model.name) = models.map Model.name := by
    refine map_filterMap_of_forall fun model member => ?_
    have listed := (perm_of_modelOrder distinct ordered).mem_iff.mpr (List.mem_map_of_mem member)
    rw [← names_of_linkAll done] at listed
    obtain ⟨other, inside, named⟩ := List.mem_map.mp listed
    obtain ⟨result, found⟩ := LinkedModel.exists_named? inside named
    exact ⟨result, found, LinkedModel.name_of_named? found⟩
  have unique : Distinct (fun model : LinkedModel α => model.name)
      (models.filterMap fun model => LinkedModel.named? linked model.name) := by
    rwa [Distinct, names]
  refine (List.perm_ext_iff_of_nodup (List.Nodup.of_map _ apart) (List.Nodup.of_map _ unique)).mpr
    fun model => ?_
  rw [List.mem_filterMap]
  constructor
  · intro member
    exact ⟨model.toModel, (linkAll_eq_ok done model member).1, findNamed_of_mem apart member⟩
  · rintro ⟨_, -, found⟩
    exact mem_of_findNamed found

/-- The absolute paths that were read for a module are all that are read inside it. -/
theorem mem_readAbsolute_iff {project : Project α} (consistent : project.Consistent) {bound : Nat}
    {place : Name → Nat} (falls : project.Falls bound place) {module : Module}
    {linked : List (LinkedModel α)} (within : ∀ name inner, LinkedModel.named? linked name = some inner →
      project.find? name = some inner) {entry : Name × NameSet}
    (read : LinkedModel.readAbsolute linked module = .ok entry) {path : Path} :
    path ∈ entry.2 ↔ project.ReadsInside module path := by
  refine ⟨fun among => ?_, fun reads => reads.mem consistent within read⟩
  induction rank : place module.model using Nat.strong_induction_on generalizing module linked entry with
  | _ rank ih =>
    obtain ⟨inner, named, -, -, all⟩ := LinkedModel.readAbsolute_eq_ok read
    rcases (all path).mp among with deeper | ⟨input, member, absolute⟩
    · have found := within _ _ named
      obtain ⟨below, inside, among⟩ := List.mem_flatMap.mp deeper
      obtain ⟨further, links, within⟩ := consistent.linked found
      obtain ⟨other, member, read⟩ := exists_left_of_mem links.read inside
      have lower := ((falls _ _ found).2 other member).2
      exact .deeper found member (ih _ (rank ▸ lower) within read among rfl)
    · exact .own member absolute

/-- Each module of a linked model has the absolute paths that are read inside it. -/
theorem absoluteSources_complete {project : Project α} (consistent : project.Consistent) {bound : Nat}
    {place : Name → Nat} (falls : project.Falls bound place) {name : Name} {model : LinkedModel α}
    (found : project.find? name = some model) {module : Module} (member : module ∈ model.modules) :
    ∃ set, model.absoluteSources.get? module.name = some set ∧
      ∀ path, path ∈ set ↔ project.ReadsInside module path := by
  obtain ⟨linked, links, within⟩ := consistent.linked found
  obtain ⟨⟨owner, set⟩, inside, read⟩ := exists_right_of_mem links.read member
  obtain ⟨_, -, -, rfl, -⟩ := LinkedModel.readAbsolute_eq_ok read
  have unique : Distinct Prod.fst model.absoluteSources := by
    rw [Distinct, links.names_absoluteSources]
    exact Model.distinct_modules (consistent.distinct found)
  exact ⟨set, Keyed.get?_of_mem unique inside, fun path => mem_readAbsolute_iff consistent falls within read⟩

end Project

/-! ## The tree of instances -/

namespace Instance

variable {β : Type}

/-- Whether places fall from each instance of a tree to those below it. -/
inductive FallsBy (place : Name → Nat) : Instance β → Prop
  | intro {node : Instance β} (lower : ∀ child ∈ node.children, place child.model < place node.model)
    (below : ∀ child ∈ node.children, FallsBy place child) : FallsBy place node

theorem FallsBy.length_le {place : Name → Nat} {node below : Instance β} (falls : node.FallsBy place)
    {path : List Name} (leads : node.descend? path = some below) : path.length ≤ place node.model := by
  induction path generalizing node with
  | nil => exact Nat.zero_le _
  | cons name rest ih =>
    obtain ⟨child, first, leads⟩ := Option.bind_eq_some_iff.mp leads
    have among := mem_of_child? first
    cases falls with
    | intro lower inner => exact (ih (inner child among) leads).trans_lt (lower child among)

end Instance

section

variable {project : Project α} {bound : Nat} {place : Name → Nat} (falls : project.Falls bound place)
include falls

theorem Layout.Placed.fallsBy {node : Layout} (placed : Layout.Placed project node) :
    node.FallsBy place := by
  induction placed with
  | intro found _ _ modules _ ih =>
    refine .intro (fun child among => ?_) ih
    obtain ⟨module, member, -, ofModel, -⟩ := exists_left_of_mem modules among
    exact ofModel ▸ ((falls _ _ found).2 module member).2

theorem Coded.Made.fallsBy [Scalar α] {clock : Clock α} {root node : Coded α}
    (made : Coded.Made project clock root node) : node.FallsBy place := by
  induction made with
  | intro fits _ ih =>
    refine .intro (fun child among => ?_) ih
    obtain ⟨module, member, -, ofModel, -⟩ := exists_left_of_mem fits.modules among
    exact ofModel ▸ ((falls _ _ fits.found).2 module member).2

end

namespace Project

variable [Scalar α] {document : Document.Project α} {project : Project α}

theorem distinct_of_declareAll {models : List (Model α)} (declared : declareAll document = .ok models) :
    Distinct Model.name models := by
  obtain ⟨library, first, second⟩ := bind_eq_ok.mp declared
  have ascending := foldlM_induction (fun _ models => Ascending Model.name models)
    (ascending_of_library first)
    (fun _ _ _ _ _ _ holds stepped => ascending_of_declareModel holds (declareOwn_eq_ok stepped)) second
  exact ascending.distinct

/-- A project is compiled by linking its models one after the other, each when those that it instantiates
have been linked. -/
theorem exists_linked (compiled : compile document = .ok project) : ∃ models order linked,
    declareAll document = .ok models ∧ modelOrder models = .ok order ∧ linkAll models order = .ok linked ∧
      linked.Perm project.models ∧ ∀ before model after, linked = before ++ model :: after →
        LinkedModel.link before model.toModel = .ok model ∧
          ∀ module ∈ model.modules, ∃ inner ∈ before, project.find? module.model = some inner := by
  obtain ⟨-, -, models, order, linked, declared, ordered, done, rfl⟩ := compile_eq_ok compiled
  refine ⟨models, order, linked, declared, ordered, done,
    perm_of_linkAll (distinct_of_declareAll declared) ordered done, ?_⟩
  rintro before model after rfl
  have isLinked := link_of_linkAll done before model after rfl
  refine ⟨isLinked, fun module member => ?_⟩
  obtain ⟨entry, -, read⟩ := exists_right_of_mem (LinkedModel.link_eq_ok isLinked).read member
  obtain ⟨inner, named, -⟩ := LinkedModel.readAbsolute_eq_ok read
  exact ⟨inner, mem_of_findNamed named, named?_of_linkAll done (findNamed_append named)⟩

/-- For all models that have different names, the search for an order ends, whatever bound on its depth
leaves room for all models. It succeeds exactly if every model that is instantiated is there and none
instantiates itself, directly or through others, and lists every model once then, after all that it
instantiates. So a compiled project was linked model by model, each when those that it instantiates had been
linked; each module has all absolute paths that are read inside it; and the instances below the main model
are no deeper than there are models. -/
theorem models_follow_instantiated :
    (∀ models : List (Model α), Distinct Model.name models →
      ((∃ order, modelOrder models = .ok order) ↔
        (∀ name other, Instantiates models name other → other ∈ models.map Model.name) ∧
          ∀ name, ¬ TransGen (Instantiates models) name name) ∧
      (∀ order, modelOrder models = .ok order → order.Perm (models.map Model.name) ∧
        ∀ before name after, order = before ++ name :: after →
          ∀ other, Instantiates models name other → other ∈ before) ∧
      ∀ depth, models.length < depth →
        (models.map Model.name).foldlM (visitModel models depth []) [] = modelOrder models) ∧
    ∀ (document : Document.Project α) (project : Project α), compile document = .ok project →
      (∃ models order linked, declareAll document = .ok models ∧ modelOrder models = .ok order ∧
        linkAll models order = .ok linked ∧ linked.Perm project.models ∧
        ∀ before model after, linked = before ++ model :: after →
          LinkedModel.link before model.toModel = .ok model ∧
            ∀ module ∈ model.modules, ∃ inner ∈ before, project.find? module.model = some inner) ∧
      (∀ name model, project.find? name = some model → ∀ module ∈ model.modules,
        ∃ set, model.absoluteSources.get? module.name = some set ∧
          ∀ path, path ∈ set ↔ project.ReadsInside module path) ∧
      (∃ main layout, project.main? = some main ∧ Layout.ofProject project main = .ok layout ∧
        (∀ depth, project.models.length < depth →
          Layout.place project depth 1 0 mainModel main [] = .ok layout) ∧
        ∀ path node, layout.descend? path = some node → path.length < project.models.length) ∧
      ∀ plan, Plan.ofProject project = .ok plan → ∀ path node, plan.root.descend? path = some node →
        path.length < project.models.length := by
  refine ⟨fun models distinct => ⟨exists_modelOrder_iff distinct, fun order found =>
    ⟨perm_of_modelOrder distinct found, (ordered_of_modelOrder distinct found).1.below⟩,
    fun depth => modelOrder_eq⟩, fun document project compiled => ?_⟩
  have consistent := consistent_of_compile compiled
  obtain ⟨place, falls⟩ := exists_falls compiled
  obtain ⟨main, isMain⟩ := exists_main compiled
  -- each model has a place that falls from module to module, which bounds how deep instances lie
  have shallow : place mainModel < project.models.length := (falls _ _ isMain).1
  refine ⟨exists_linked compiled, fun name model found module member =>
    absoluteSources_complete consistent falls found member, ?_, fun plan planned path node leads => ?_⟩
  · obtain ⟨layout, placed, bounds⟩ := exists_layout compiled isMain
    refine ⟨main, layout, isMain, placed, bounds, fun path node leads => ?_⟩
    obtain ⟨whole, ofMain, -⟩ := Plan.placed_of_layout consistent.distinct isMain placed
    exact ((whole.fallsBy falls).length_le leads).trans_lt (ofMain.symm ▸ shallow)
  · obtain ⟨made, ofMain, -⟩ := Plan.made_of_ofProject consistent planned
    exact ((made.fallsBy falls).length_le leads).trans_lt (ofMain.symm ▸ shallow)

/-- A compiled project of three models and those of the library, and two models of which each instantiates
the other. -/
theorem models_follow_instantiated_nested :
    (∃ project, compile Plan.nested = .ok project ∧ ∃ plan, Plan.ofProject project = .ok plan ∧
      (∃ linked, linked.Perm project.models ∧ ∀ before model after, linked = before ++ model :: after →
        ∀ module ∈ model.modules, ∃ inner ∈ before, project.find? module.model = some inner) ∧
      ∀ path node, plan.root.descend? path = some node → path.length < 8) ∧
    let one : Model Float := ⟨"one", none, [.module ⟨"m", "two", []⟩], false⟩
    let two : Model Float := ⟨"two", none, [.module ⟨"m", "one", []⟩], false⟩
    ¬ ∃ order, modelOrder [one, two] = .ok order := by
  constructor
  · have check : ∃ project ∈ (compile Plan.nested).toOption, project.models.length = 8 ∧
        (Plan.ofProject project).toOption.isSome := by
      rw [Project.compile_eq]
      decide +kernel
    obtain ⟨project, compiled, length, planned⟩ := check
    have compiled := toOption_eq_some.mp compiled
    obtain ⟨plan, planned⟩ := Option.isSome_iff_exists.mp planned
    have planned := toOption_eq_some.mp planned
    obtain ⟨⟨-, -, linked, -, -, -, perm, follows⟩, -, -, shallow⟩ :=
      models_follow_instantiated.2 Plan.nested project compiled
    refine ⟨project, compiled, plan, planned, ⟨linked, perm, fun before model after split =>
      (follows before model after split).2⟩, ?_⟩
    rw [← length]
    exact shallow plan planned
  · intro one two found
    have distinct : Distinct Model.name [one, two] := by
      show [one.name, two.name].Nodup
      decide
    have acyclic := ((models_follow_instantiated.1 [one, two] distinct).1.mp found).2
    have toTwo : Instantiates [one, two] "one" "two" :=
      ⟨one, List.mem_cons_self, rfl, ⟨"m", "two", []⟩, List.mem_cons_self, rfl⟩
    have toOne : Instantiates [one, two] "two" "one" :=
      ⟨two, List.mem_cons_of_mem _ List.mem_cons_self, rfl, ⟨"m", "one", []⟩, List.mem_cons_self, rfl⟩
    exact acyclic "one" (.tail (.single toTwo) toOne)

end Project

end StockFlow
