import StockFlow.Proofs.Building
import StockFlow.Proofs.Codability

/-!
# Nesting

The models of a compiled project are linked one after the other, each to models before it. So each has a
place in that order, places fall from a model to those that it instantiates, and the main model can be
laid out: the recursion over modules ends by itself, before the bound on its depth is reached.
-/

namespace StockFlow

variable {α : Type}

namespace Project

/-! ## The order of models -/

section

variable {models : List (Model α)}

/-- A model is listed once: those on the way to it are not listed below it. -/
theorem nodup_of_visitModel {depth : Nat} {path done after : List Name} {name : Name}
    (visited : visitModel models depth path done name = .ok after) (distinct : done.Nodup)
    (waiting : ∀ other ∈ path, other ∉ done) : after.Nodup ∧ ∀ other ∈ path, other ∉ after := by
  induction depth generalizing path done after name with
  | zero => cases visited
  | succ depth ih =>
    rcases visitModel_eq_ok visited with ⟨-, rfl⟩ | ⟨model, next, fresh, apart, -, folded, rfl⟩
    · exact ⟨distinct, waiting⟩
    · have below := foldlM_induction
        (fun _ next => next.Nodup ∧ ∀ other ∈ name :: path, other ∉ next)
        ⟨distinct, List.forall_mem_cons.mpr ⟨fresh, waiting⟩⟩
        (fun _ _ _ before after _ holds stepped => ih stepped holds.1 holds.2) folded
      obtain ⟨unlisted, others⟩ := List.forall_mem_cons.mp below.2
      refine ⟨List.concat_eq_append ▸ below.1.concat unlisted, fun other member => ?_⟩
      simp only [List.mem_append, List.mem_singleton, not_or]
      exact ⟨others other member, fun same => apart (same ▸ member)⟩

theorem nodup_of_modelOrder {order : List Name} (ordered : modelOrder models = .ok order) :
    order.Nodup := by
  refine foldlM_induction (fun _ order => order.Nodup) List.nodup_nil ?_ ordered
  intro _ _ _ before after _ distinct stepped
  exact (nodup_of_visitModel stepped distinct (by simp)).1

theorem names_of_linkAll {order : List Name} {linked : List (LinkedModel α)}
    (done : linkAll models order = .ok linked) : linked.map (fun model => model.name) = order := by
  refine foldlM_induction
    (fun taken linked => linked.map (fun model : LinkedModel α => model.name) = taken) rfl ?_ done
  intro taken name _ before after _ same stepped
  split at stepped
  · cases stepped
  · rename_i model found
    obtain ⟨last, isLinked, stepped⟩ := bind_eq_ok.mp stepped
    obtain rfl := pure_eq_ok.mp stepped
    have named : last.name = name := by
      rw [← name_of_findNamed found, ← (LinkedModel.link_eq_ok isLinked).same]
    simp [same, named]

variable {order : List Name} {linked : List (LinkedModel α)} (ordered : modelOrder models = .ok order)
  (done : linkAll models order = .ok linked)
include ordered done

theorem nodup_of_linkAll : (linked.map fun model => model.name).Nodup :=
  names_of_linkAll done ▸ nodup_of_modelOrder ordered

/-- Each model that is linked is among those of the project. -/
theorem length_le_of_linkAll : linked.length ≤
    (models.filterMap fun model => LinkedModel.named? linked model.name).length := by
  have inside : (linked.map fun model => model.name) ⊆ (models.filterMap fun model =>
      LinkedModel.named? linked model.name).map fun model => model.name := by
    intro name member
    obtain ⟨model, among, rfl⟩ := List.mem_map.mp member
    obtain ⟨other, found⟩ := LinkedModel.exists_named? among rfl
    have listed := named?_of_linkAll done found
    exact List.mem_map.mpr ⟨other, mem_of_findNamed listed, LinkedModel.name_of_named? listed⟩
  simpa using (nodup_of_linkAll ordered done).length_le_of_subset inside

/-- What a model instantiates was linked before it. -/
theorem idxOf_lt_of_linkAll {model : LinkedModel α} (inside : model ∈ linked) {module : Module}
    (member : module ∈ model.modules) : (LinkedModel.named? linked module.model).isSome ∧
      (linked.map fun model => model.name).idxOf module.model <
        (linked.map fun model => model.name).idxOf model.name := by
  have distinct := nodup_of_linkAll ordered done
  obtain ⟨-, before, ⟨after, rfl⟩, links⟩ := linkAll_eq_ok done model inside
  obtain ⟨entry, -, read⟩ := exists_right_of_mem links.read member
  obtain ⟨inner, named, -⟩ := LinkedModel.readAbsolute_eq_ok read
  have earlier : module.model ∈ before.map fun model => model.name :=
    List.mem_map.mpr ⟨inner, mem_of_findNamed named, LinkedModel.name_of_named? named⟩
  simp only [List.map_append, List.append_assoc] at distinct ⊢
  have unlisted : model.name ∉ before.map fun model => model.name := fun member =>
    (List.disjoint_of_nodup_append distinct) member (by simp)
  have found : LinkedModel.named? ((before ++ [model]) ++ after) module.model = some inner :=
    findNamed_append (findNamed_append named)
  rw [List.append_assoc] at found
  refine ⟨Option.isSome_iff_exists.mpr ⟨inner, found⟩, ?_⟩
  rw [List.idxOf_append_of_mem earlier, List.idxOf_append_of_notMem unlisted]
  exact (List.idxOf_lt_length_of_mem earlier).trans_le (Nat.le_add_right ..)

end

/-- Whether places below a bound fall from each model to those that it instantiates. -/
def Falls (project : Project α) (bound : Nat) (place : Name → Nat) : Prop :=
  ∀ name model, project.find? name = some model → place name < bound ∧
    ∀ module ∈ model.modules, (project.find? module.model).isSome ∧ place module.model < place name

theorem exists_falls [Scalar α] {document : Document.Project α} {project : Project α}
    (compiled : compile document = .ok project) : ∃ place, project.Falls project.models.length place := by
  obtain ⟨-, -, models, order, linked, -, ordered, done, rfl⟩ := compile_eq_ok compiled
  refine ⟨fun name => (linked.map fun model => model.name).idxOf name, fun name model found => ?_⟩
  obtain ⟨other, -, sought⟩ := List.mem_filterMap.mp (mem_of_findNamed found)
  have inside := mem_of_findNamed sought
  obtain rfl := LinkedModel.name_of_named? found
  constructor
  · have listed := List.idxOf_lt_length_of_mem (List.mem_map_of_mem (f := fun m => m.name) inside)
    rw [List.length_map] at listed
    exact listed.trans_le (length_le_of_linkAll ordered done)
  · intro module member
    obtain ⟨known, lower⟩ := idxOf_lt_of_linkAll ordered done inside member
    obtain ⟨inner, found⟩ := Option.isSome_iff_exists.mp known
    exact ⟨Option.isSome_iff_exists.mpr ⟨inner, named?_of_linkAll done found⟩, lower⟩

end Project

/-! ## Layouts -/

namespace Layout

variable {project : Project α}

theorem exists_place {bound : Nat} {place : Name → Nat} (falls : project.Falls bound place) {depth : Nat}
    {name : Name} {model : LinkedModel α} (found : project.find? name = some model)
    (shallow : place name < depth) (reserved shift : Nat) (label : Name) (wires : Keyed Path) :
    ∃ node, Layout.place project depth reserved shift label model wires = .ok node := by
  induction depth generalizing name model reserved shift label wires with
  | zero => cases shallow
  | succ depth ih =>
    unfold Layout.place
    refine exists_bind_eq_ok.mpr ((exists_placeAll (fun module member shift => ?_) _).imp
      fun children placed => ⟨placed, _, rfl⟩)
    obtain ⟨known, lower⟩ := (falls name model found).2 module member
    obtain ⟨inner, found⟩ := Option.isSome_iff_exists.mp known
    rw [found]
    exact ih found (by omega) 0 shift module.name (Model.wires module)

theorem placeAll_mono {place place' : Module → Nat → Except Fault Layout}
    (grows : ∀ module shift node, place module shift = .ok node → place' module shift = .ok node)
    {modules : List Module} {shift : Nat} {nodes : List Layout}
    (placed : placeAll place modules shift = .ok nodes) : placeAll place' modules shift = .ok nodes := by
  induction modules generalizing shift nodes with
  | nil => exact placed
  | cons module rest ih =>
    simp only [placeAll, bind_eq_ok, pure_eq_ok] at placed ⊢
    obtain ⟨first, here, others, after, rfl⟩ := placed
    exact ⟨first, grows _ _ _ here, others, ih after, rfl⟩

/-- A bound on the depth that is large enough does not matter. -/
theorem place_mono {depth deeper : Nat} (more : depth ≤ deeper) {reserved shift : Nat} {name : Name}
    {model : LinkedModel α} {wires : Keyed Path} {node : Layout}
    (placed : place project depth reserved shift name model wires = .ok node) :
    place project deeper reserved shift name model wires = .ok node := by
  induction depth generalizing deeper reserved shift name model wires node with
  | zero => cases placed
  | succ depth ih =>
    cases deeper with
    | zero => omega
    | succ deeper =>
      simp only [place, bind_eq_ok, pure_eq_ok] at placed ⊢
      obtain ⟨children, below, rfl⟩ := placed
      refine ⟨children, placeAll_mono (fun module shift node placed => ?_) below, rfl⟩
      split at placed
      · cases placed
      · exact ih (by omega) placed

end Layout

namespace Project

variable [Scalar α] {document : Document.Project α} {project : Project α}

/-- A compiled project has a main model: its document declares one. -/
theorem exists_main (compiled : compile document = .ok project) : ∃ main, project.main? = some main := by
  obtain ⟨-, ⟨own, listed, named⟩, -⟩ := compile_eq_ok compiled
  obtain ⟨main, found, -⟩ := exists_own compiled listed
  rw [named] at found
  exact ⟨main, found⟩

/-- The times of every model of a compiled project were checked. -/
theorem validate_timeSpec (compiled : compile document = .ok project) {model : LinkedModel α}
    (member : model ∈ project.models) {spec : TimeSpec α} (own : model.timeSpec? = some spec) :
    spec.validate = .ok () := by
  obtain ⟨library, models, declared, owns, -, among, -⟩ := models_of_compile compiled
  have given : ∀ model ∈ library, model.timeSpec? = none := by
    intro model member
    obtain ⟨function, built⟩ := built_of_library declared model member
    obtain ⟨-, -, -, -, -, -, same, -⟩ := Model.build_eq_ok built
    rw [same]
    cases function <;> rfl
  have checked : ∀ model ∈ models, ∀ spec, model.timeSpec? = some spec → spec.validate = .ok () := by
    refine foldlM_induction (fun _ models => ∀ model ∈ models, ∀ spec, model.timeSpec? = some spec →
      spec.validate = .ok ()) (fun model member spec own => ?_) ?_ owns
    · rw [given model member] at own
      cases own
    · intro _ document _ before after _ holds stepped model member spec own
      obtain ⟨made, built, inserted⟩ := declareModel_eq_ok.mp (declareOwn_eq_ok stepped)
      rcases (mem_insertNamed? inserted).mp member with rfl | earlier
      · obtain ⟨-, -, -, -, -, -, same, -⟩ := Model.build_eq_ok built
        unfold declareOwn at stepped
        split at stepped
        · cases stepped
        · rw [← same, own] at stepped
          obtain ⟨⟨⟩, valid, -⟩ := bind_eq_ok.mp stepped
          exact valid
      · exact holds model earlier spec own
  exact checked _ (among model member) spec own

theorem validate_runSpec (compiled : compile document = .ok project) :
    project.runSpec.validate = .ok () := by
  obtain ⟨main, isMain⟩ := exists_main compiled
  unfold runSpec
  rw [isMain]
  cases own : main.timeSpec? with
  | some spec => simpa [own] using validate_timeSpec compiled (mem_of_findNamed isMain) own
  | none =>
    obtain ⟨valid, -, _, _, _, -, -, -, rfl⟩ := compile_eq_ok compiled
    simpa [own] using valid

/-- The main model of a compiled project is laid out under every bound on the depth from that of the
layout on, so the recursion over modules ends without one. -/
theorem exists_layout (compiled : compile document = .ok project) {main : LinkedModel α}
    (isMain : project.main? = some main) : ∃ layout, Layout.ofProject project main = .ok layout ∧
      ∀ depth, project.models.length < depth →
        Layout.place project depth 1 0 mainModel main [] = .ok layout := by
  obtain ⟨place, falls⟩ := exists_falls compiled
  have shallow := (falls mainModel main isMain).1
  obtain ⟨layout, placed⟩ :=
    Layout.exists_place falls isMain (Nat.lt_succ_of_lt shallow) 1 0 mainModel []
  exact ⟨layout, placed, fun depth more => Layout.place_mono more placed⟩

end Project

end StockFlow
